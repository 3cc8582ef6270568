import CachePurge.Cleanup
import CachePurge.SweepHistory

/-! When a task leaves the queue. A worker that holds a task has it from one take, and
has walked for it at most once since; so what the counters say when the task ends is
what that walk has met. -/
namespace CachePurge
open General

def Cleanup.conf (platform : Platform) (s : Cleanup) : WalkConf := ⟨platform,s.work.root,s.work.protection⟩

section held
variable (native : Native) (names : Nat → Name) (keyOf : Bytes → Bytes) (platform : Platform) (start : Cleanup)

/- The walk for the task that was taken in start: pre came before it, and later is
what has happened since it began. -/
structure WalkedFor (s : Cleanup) (pre : List SweepEvent) (tree : Tree) (later : List SweepEvent) : Prop where
  before : ∀ e ∈ pre, SweepEvent.around e = true
  still : ∀ e ∈ later, SweepEvent.starts e = false
  reached : s.sweep = (sweepMachine native names keyOf).after
    (((sweepMachine native names keyOf).after start.sweep pre).step native names keyOf
      (.start (start.conf platform) start.work.target tree)).1 later

inductive SinceTake (s : Cleanup) : Prop where
  | waiting {pre : List SweepEvent} (begun : s.begun = false) (complete : s.work.complete = start.work.complete)
      (before : ∀ e ∈ pre, SweepEvent.around e = true)
      (reached : s.sweep = (sweepMachine native names keyOf).after start.sweep pre)
  | walked {pre : List SweepEvent} {tree : Tree} {later : List SweepEvent} (begun : s.begun = true)
      (walked : WalkedFor native names keyOf platform start s pre tree later)
      (ended : s.work.complete = true → s.halted = true ∧ s.work.counters = s.counters)

structure Held (s : Cleanup) : Prop where
  item : s.work.item = start.work.item
  root : s.work.root = start.work.root
  protection : s.work.protection = start.work.protection
  target : s.work.target = start.work.target
  since : SinceTake native names keyOf platform start s

variable {native names keyOf platform start} {s : Cleanup}

end held

section runs
variable {native : Native} {names : Nat → Name} {keyOf : Bytes → Bytes} {namespaces : List Nat} {platform : Platform}

variable {epochs : Nat → Epoch}

variable {start s : Cleanup}

end runs

section site

end site
end CachePurge
