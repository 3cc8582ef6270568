import CachePurge.GenerationRuns
import CachePurge.WalkCoverage
import CachePurge.Worker

/-! A pass of ngx_http_cache_purge_delete_file over a live cache. The turn of the
walk, the read of the key, the verdict under the namespace lock and the unlink are
separate steps: between any two of them requests mint keys, namespaces are
invalidated, and other processes store and remove files. -/
namespace CachePurge
open General

structure Target where
  ns : Option Nat
  key : Bytes
  exact : Bool
  deriving DecidableEq, Repr

def Work.target (w : Work) : Target := ⟨w.ns,w.selector,false⟩

/- ngx_http_cache_purge_delete_variants, which walks for no empty key. -/
def deleteVariants (key : Bytes) : Option Target := if key.isEmpty then none else some ⟨none,key,true⟩

/- ngx_http_cache_purge_partial, whose key ends with '*'. -/
def purgePartial (key : Bytes) : Target := ⟨none,key.dropLast,false⟩

namespace Target

def wanted (t : Target) : Nat := if t.exact then t.key.length + 1 else t.key.length

def guarded (conf : WalkConf) (t : Target) (path : Bytes) : Bool :=
  isProtectedPath conf path || !isCacheFile conf.platform path || keyMaxLen ≤ t.key.length ||
    (t.exact && t.key.isEmpty)

def selects (t : Target) (entry : EntryKey) : Bool :=
  t.wanted == 0 ||
    if t.exact then
      entry.buffer[t.key.length]? == some lineFeed && entry.buffer.take t.key.length == t.key
    else caseEqual t.wanted entry.buffer t.key

end Target

inductive Stage where
  | walking
  | reading (path : Bytes) (v : FileVisit)
  | judging (path : Bytes) (v : FileVisit) (entry : EntryKey)
  | unlinking (path : Bytes) (v : FileVisit) (entry : EntryKey)
  | ended (rc : Rc)
  deriving DecidableEq, Repr

structure Pass where
  conf : WalkConf
  target : Target
  tree : Tree
  cursor : Cursor
  stage : Stage
  filesDeleted : UInt64
  deleteErrors : UInt64
  bytesDeleted : UInt64

abbrev Files := Bytes → Option Bytes

structure Sweep where
  world : World
  files : Files
  pass : Option Pass

inductive SweepEvent where
  | key (e : KeyEvent)
  | store (path content : Bytes)
  | remove (path : Bytes)
  | start (conf : WalkConf) (target : Target) (tree : Tree)
  | advance

inductive SweepOutput where
  | key (o : KeyOutput)
  | unlinked (ns : Option Nat) (path content : Bytes)
  | node (path : Bytes)
  deriving DecidableEq, Repr

def saturate (n : UInt64) : UInt64 := if n = 0xFFFFFFFFFFFFFFFF then n else n + 1

def addSize (total : UInt64) (size : Nat) : UInt64 :=
  total + (min size (2^64 - 1 - total.toNat)).toUInt64

namespace Pass

def begin (conf : WalkConf) (target : Target) (tree : Tree) (earlier : Option Pass) : Pass :=
  let buffer := match earlier with
    | some p => match p.stage with
      | .ended _ => p.cursor.data
      | _ => []
    | none => []
  ⟨conf,target,tree,⟨buffer,0,[],false,0⟩,.walking,0,0,0⟩

def walk (p : Pass) : Pass :=
  let next := walkTurn p.conf p.tree p.cursor
  {p with
    cursor := next.1
    stage := match next.2 with
      | .going => .walking
      | .visit path v => .reading path v
      | .ended rc => .ended rc}

end Pass

def FileAnswers.on (answers : FileAnswers) (content : Option Bytes) : FileAnswers :=
  if content.isNone && answers.file == .opened then {answers with file := .vanished} else answers

section sweep
variable (native : Native) (names : Nat → Name) (keyOf : Bytes → Bytes)

namespace Pass

def read (path : Bytes) (v : FileVisit) (content : Option Bytes) (p : Pass) : Pass :=
  let skipped := {p with stage := .walking}
  if p.target.guarded p.conf path then skipped
  else match readKey native (v.read.on content) path (content.getD []) with
    | .ok entry =>
      if entry.count p.target.wanted = p.target.wanted then {p with stage := .judging path v entry}
      else skipped
    | .error .error => {skipped with cursor := p.cursor.scanError}
    | .error _ => skipped

def verdict (zones : Nat → Zone) (entry : EntryKey) (p : Pass) : Bool :=
  (match p.target.ns with
    | none => true
    | some ns => generationStale (names ns) (zones ns) entry.key == .ok) && p.target.selects entry

def judge (zones : Nat → Zone) (path : Bytes) (v : FileVisit) (entry : EntryKey) (p : Pass) :
    Pass × List SweepOutput :=
  if p.verdict names zones entry then
    ({p with stage := .unlinking path v entry},if p.target.exact then [.node path] else [])
  else ({p with stage := .walking},[])

def unlink (path : Bytes) (v : FileVisit) (entry : EntryKey) (files : Files) (p : Pass) :
    Pass × Files × List SweepOutput :=
  let p := {p with stage := .walking}
  match files path, v.unlinked with
  | some content, .ok =>
    ({p with
      filesDeleted := saturate p.filesDeleted
      bytesDeleted := addSize p.bytesDeleted entry.fileSize},
      Function.update files path none,[.unlinked p.target.ns path content])
  | _, .failed => ({p with deleteErrors := saturate p.deleteErrors},files,[])
  | _, _ => (p,files,[])

end Pass

def Sweep.advance (s : Sweep) (p : Pass) : Sweep × List SweepOutput :=
  match p.stage with
  | .walking => ({s with pass := some p.walk},[])
  | .reading path v => ({s with pass := some (p.read native path v (s.files path))},[])
  | .judging path v entry =>
    let next := p.judge names s.world.zones path v entry
    ({s with pass := some next.1},next.2)
  | .unlinking path v entry =>
    let next := p.unlink path v entry s.files
    ({s with pass := some next.1, files := next.2.1},next.2.2)
  | .ended _ => (s,[])

def Sweep.step (s : Sweep) : SweepEvent → Sweep × List SweepOutput
  | .key e =>
    let next := s.world.step names e
    ({s with world := next.1},next.2.map .key)
  | .store path content =>
    if (entryOf native path content).map EntryKey.key = some (keyOf path) then
      ({s with files := Function.update s.files path (some content)},[])
    else (s,[])
  | .remove path => ({s with files := Function.update s.files path none},[])
  | .start conf target tree => ({s with pass := some (.begin conf target tree s.pass)},[])
  | .advance => match s.pass with
    | none => (s,[])
    | some p => s.advance native names p

def sweepMachine : Machine Sweep SweepEvent SweepOutput := ⟨Sweep.step native names keyOf⟩

def sweepInit (epochs : Nat → Epoch) (files : Files) : Sweep := ⟨worldInit epochs,files,none⟩

end sweep
end CachePurge
