import CachePurge.General.Machine
import CachePurge.GenerationVersions
import Mathlib.Data.List.DropRight

/-! Runs of one namespace zone. A run starts at ngx_http_cache_purge_generation_init;
its history keeps the calls that returned NGX_OK, each with the serial it
published and whether the slab refused it a trie node. -/
namespace CachePurge
open General

structure Record where
  serial : UInt64
  call : Invalidation
  refused : Bool
  deriving DecidableEq, Repr

namespace Record

def scope (record : Record) : Scope := if record.refused then .everything else record.call.asked

def wide (record : Record) : Bool := record.scope == .everything

end Record

def zoneMachine (name : Name) : Machine Zone Invalidation Record where
  step z call :=
    let outcome := generationInvalidate name call z
    (outcome.2,if outcome.1 = .ok then [⟨outcome.2.shared.serial,call,call.refused z⟩] else [])

/- The value a history assigns to a key: the last namespace-wide serial, and the
serials of the calls after it that cover the key. -/
def reference (history : List Record) (key : Bytes) : UInt64 :=
  let base := ((history.filter Record.wide).getLast?.map Record.serial).getD 1
  let later := history.rtakeWhile fun record => !record.wide
  ((later.filter fun record => record.scope.covers key).map Record.serial).foldl max base

theorem wideScope {record : Record} : record.wide = true ↔ record.scope = .everything := by
  simp [Record.wide]

theorem foldlMaxBelow {serials : List UInt64} {base bound : UInt64} (below : base ≤ bound)
    (all : ∀ serial ∈ serials, serial ≤ bound) : serials.foldl max base ≤ bound := by
  induction serials generalizing base with
  | nil => exact below
  | cons serial rest ih =>
    refine ih ?_ fun s member => all s (List.mem_cons_of_mem _ member)
    have head := all serial (List.mem_cons_self ..)
    change (if base ≤ serial then serial else base) ≤ bound
    split <;> assumption

theorem referenceBelow {history : List Record} {bound : UInt64} (one : 1 ≤ bound)
    (all : ∀ record ∈ history, record.serial ≤ bound) (key : Bytes) :
    reference history key ≤ bound := by
  refine foldlMaxBelow ?_ fun serial member => ?_
  · cases last : (history.filter Record.wide).getLast? with
    | none => exact one
    | some record => exact all record (List.mem_of_mem_filter (List.mem_of_getLast? last))
  · obtain ⟨record,present,rfl⟩ := List.mem_map.mp member
    exact all record ((List.rtakeWhile_suffix _ _).subset (List.mem_of_mem_filter present))

theorem referenceStep {history : List Record} {record : Record} {bound : UInt64} (one : 1 ≤ bound)
    (all : ∀ r ∈ history, r.serial ≤ bound) (above : bound < record.serial) (key : Bytes) :
    reference (history ++ [record]) key =
      if record.scope.covers key then record.serial else reference history key := by
  by_cases wide : record.wide = true
  · have covers : record.scope.covers key := by rw [wideScope.mp wide]; trivial
    simp [reference,List.filter_append,wide,covers]
  · have old := referenceBelow one all key
    simp only [Bool.not_eq_true] at wide
    by_cases covers : record.scope.covers key
    · have split : reference (history ++ [record]) key = max (reference history key) record.serial := by
        simp [reference,List.filter_append,wide,covers]
      rw [split,if_pos covers]
      change (if reference history key ≤ record.serial then record.serial else _) = _
      rw [if_pos]
      simp only [UInt64.le_iff_toNat_le,UInt64.lt_iff_toNat_lt] at *
      omega
    · simp [reference,List.filter_append,wide,covers]

structure Agrees (history : List Record) (z : Zone) : Prop where
  bounded : z.shared.Bounded
  started : 1 ≤ z.shared.serial
  published : ∀ record ∈ history, record.serial ≤ z.shared.serial
  lookup : ∀ key, generationLookup z.shared key = reference history key

theorem initAgrees (epoch : Epoch) : Agrees [] (generationInit epoch) := by
  refine ⟨initBounded epoch,UInt64.le_refl _,by simp,fun key => lookupUnique fun n => ?_⟩
  simp [generationInit,exactReading,prefixReading,reference]

theorem zoneStep {name : Name} {call : Invalidation} {z : Zone}
    (ok : (generationInvalidate name call z).1 = .ok) :
    ((zoneMachine name).step z call).2 =
      [⟨(generationInvalidate name call z).2.shared.serial,call,call.refused z⟩] := by
  simp [zoneMachine,ok]

theorem stepAgrees (name : Name) {history : List Record} {z : Zone} (call : Invalidation)
    (agrees : Agrees history z) :
    Agrees (history ++ ((zoneMachine name).step z call).2) ((zoneMachine name).step z call).1 := by
  by_cases ok : (generationInvalidate name call z).1 = .ok
  · have step := invalidateAccepted agrees.bounded ok
    have above : z.shared.serial < (generationInvalidate name call z).2.shared.serial := by
      rw [UInt64.lt_iff_toNat_lt,step.serial]
      omega
    have weaker {s : UInt64} (h : s ≤ z.shared.serial) :
        s ≤ (generationInvalidate name call z).2.shared.serial := by
      simp only [UInt64.le_iff_toNat_le,UInt64.lt_iff_toNat_lt] at *
      omega
    rw [zoneStep ok]
    refine ⟨step.bounded',weaker agrees.started,fun record member => ?_,fun key => ?_⟩
    · rcases List.mem_append.mp member with old | new
      · exact weaker (agrees.published record old)
      · rw [List.mem_singleton.mp new]
        exact UInt64.le_refl _
    · rw [referenceStep agrees.started agrees.published above,← agrees.lookup key]
      exact step.lookup key
  · rcases invalidateOutcome name call z with ⟨_,same⟩ | ⟨accepted,_⟩
    · simp only [zoneMachine,ok,if_false,List.append_nil,same]
      exact agrees
    · exact absurd accepted ok

theorem runAgrees (name : Name) (epoch : Epoch) (calls : List Invalidation) :
    Agrees ((zoneMachine name).outputs (generationInit epoch) calls)
      ((zoneMachine name).after (generationInit epoch) calls) :=
  (zoneMachine name).tracks (initAgrees epoch)
    (fun _ _ call agrees => stepAgrees name call agrees) calls

end CachePurge
