import CachePurge.SweepRuns
import CachePurge.WalkSlices

/-! What a pass has looked at. A failure ends an entry, a directory or the walk in
silence only where a counter moves, so that a pass whose counters are still zero
was at every entry of the tree and handed every file to
ngx_http_cache_purge_delete_file. -/
namespace CachePurge
open General

namespace Cursor

def spent (c : Cursor) : Nat := c.scanErrors + 2 * c.work

end Cursor
inductive Examination where
  | entry (path : Bytes)
  | file (path : Bytes) (v : FileVisit)
  deriving DecidableEq, Repr

def Examination.entries : Examination → List Bytes
  | .entry path => [path]
  | .file _ _ => []

def Examination.files : Examination → List (Bytes × FileVisit)
  | .entry _ => []
  | .file path v => [(path,v)]

/- What a step of the pass looks at: the entry that the walk reads, or the file that
ngx_http_cache_purge_delete_file is called for. -/
def Pass.examines (p : Pass) : List Examination :=
  match p.stage with
  | .walking => (p.cursor.examines entryPath).map .entry
  | .reading path v => [.file path v]
  | _ => []

def Sweep.examines (s : Sweep) : SweepEvent → List Examination
  | .advance => (s.pass.map Pass.examines).getD []
  | _ => []

def Stage.unread : Stage → List (Bytes × FileVisit)
  | .reading path v => [(path,v)]
  | _ => []

def SweepEvent.starts : SweepEvent → Bool
  | .start _ _ _ => true
  | _ => false

section explores
variable {conf : WalkConf} {tree : Tree} {past : List Examination} {p : Pass}

end explores

def Pass.counters (p : Pass) : Counters :=
  ⟨p.filesDeleted,p.deleteErrors,p.cursor.scanErrors.toUInt64,p.bytesDeleted⟩

section complete
variable (native : Native) (names : Nat → Name) (keyOf : Bytes → Bytes)

variable {native names keyOf} {conf : WalkConf} {target : Target} {tree : Tree} {start : Sweep}
  {events : List SweepEvent}

end complete
section unreadable

variable (native : Native) (names : Nat → Name) (keyOf : Bytes → Bytes)

end unreadable
end CachePurge
