import CachePurge.CacheFile

/-! The directory walk: a stack of open directories, one buffer for their path,
and ngx_http_cache_purge_walk_step one directory read at a time; a slice that
ends with NGX_AGAIN ends between two of these. What the operating system and the
allocator will answer below the root is a tree, and an open directory holds the
entries that its handle has still to return. -/
namespace CachePurge

inductive Answer where
  | ok | declined | vanished | failed
  deriving DecidableEq, Repr

def Answer.present : Answer → Bool
  | .ok | .failed => true
  | .declined | .vanished => false

/- The answers on one entry. room is what the allocator gives when the path buffer
has to grow, with the bytes it finds there; info is ngx_http_cache_purge_de_info. -/
structure EntryAnswers where
  room : Option (Nat → UInt8)
  info : Answer

/- ngx_http_cache_purge_file_info, then the reader's calls and the unlink. -/
structure FileVisit where
  stat : Answer
  read : FileAnswers
  unlinked : Answer
  deriving DecidableEq, Repr

structure DirAnswers where
  frame : Bool
  opened : Answer
  closed : Bool
  deriving DecidableEq, Repr

inductive Kind where
  | file (v : FileVisit)
  | directory (d : DirAnswers)
  | other
  deriving DecidableEq, Repr

inductive Listing where
  | done
  | broken (rest : Listing)
  | entry (name : Bytes) (answers : EntryAnswers) (kind : Kind) (sub rest : Listing)

structure Tree where
  room : Option (Nat → UInt8)
  dir : DirAnswers
  listing : Listing

structure Frame where
  len : Nat
  rest : Listing
  closed : Bool

structure Cursor where
  data : Bytes
  len : Nat
  frames : List Frame
  started : Bool
  scanErrors : Nat

structure WalkConf where
  platform : Platform
  root : Bytes
  protection : List Bytes

def sizeMax : Nat := 2^64 - 1

def dotName (name : Bytes) : Bool := name == [46] || name == [46,46]

def isProtectedPath (conf : WalkConf) (path : Bytes) : Bool :=
  !pathContains conf.platform path conf.root || conf.protection.any fun name =>
    pathLength conf.platform conf.root < name.length && pathContains conf.platform name conf.root &&
      pathContains conf.platform path name

namespace Cursor

def base (c : Cursor) : Nat := (c.frames.head?.map Frame.len).getD 0

def path (c : Cursor) : Bytes := c.data.take c.len

def scanError (c : Cursor) : Cursor := {c with scanErrors := c.scanErrors + 1}

end Cursor

def overwrite (data : Bytes) (offset : Nat) (bytes : Bytes) : Bytes :=
  data.take offset ++ bytes ++ data.drop (offset + bytes.length)

def capacity (size : Nat) : Nat := if size + 1 ≤ sizeMax / 2 then (size + 1) * 2 else size + 1

def regrow (room : Option (Nat → UInt8)) (base size : Nat) (data : Bytes) : Option Bytes :=
  if data.length ≤ size then
    room.map fun junk => overwrite ((List.range (capacity size)).map junk) 0 (data.take base)
  else some data

def walkName (room : Option (Nat → UInt8)) (name : Bytes) (c : Cursor) : Option Cursor :=
  if sizeMax - 2 < name.length || sizeMax - name.length - 2 < c.base then none
  else
    let separator := if c.frames.isEmpty then [] else [slash]
    let size := c.base + separator.length + name.length
    (regrow room c.base size c.data).map fun data =>
      {c with data := overwrite data c.base (separator ++ name ++ [0]), len := size}

def walkOpen (d : DirAnswers) (listing : Listing) (c : Cursor) : Rc × Cursor :=
  if !d.frame then (.abort,c.scanError)
  else match d.opened with
    | .ok => (.ok,{c with frames := ⟨c.len,listing,d.closed⟩ :: c.frames})
    | .failed => (.error,c.scanError)
    | .vanished => (.error,c)
    | .declined => (.declined,c)

def walkClose (c : Cursor) : Cursor :=
  match c.frames with
  | [] => c
  | frame :: parents =>
    {c with
      data := c.data.set frame.len 0
      len := frame.len
      frames := parents
      scanErrors := if frame.closed then c.scanErrors else c.scanErrors + 1}

def closeAll : Nat → Cursor → Cursor
  | 0, c => c
  | n + 1, c => closeAll n (walkClose c)

def walkAbort (c : Cursor) : Cursor := closeAll c.frames.length c

inductive Turned where
  | going
  | visit (path : Bytes) (v : FileVisit)
  | ended (rc : Rc)
  deriving DecidableEq, Repr

section walk
variable (conf : WalkConf)

def walkEntry (kind : Kind) (sub : Listing) (c : Cursor) : Cursor × Turned :=
  match kind with
  | .file v => match v.stat with
    | .ok => (c,.visit c.path v)
    | .failed => (c.scanError,.going)
    | _ => (c,.going)
  | .directory d =>
    if isProtectedPath conf c.path then (c,.going)
    else match walkOpen d sub c with
      | (.abort, c) => (walkAbort c,.ended .abort)
      | (_, c) => (c,.going)
  | .other => (c,.going)

def walkRead (frame : Frame) (parents : List Frame) (c : Cursor) : Cursor × Turned :=
  match frame.rest with
  | .done => (walkClose c,.going)
  | .broken _ => (walkClose c.scanError,.going)
  | .entry name answers kind sub rest =>
    let c := {c with frames := {frame with rest := rest} :: parents}
    if dotName name then (c,.going)
    else match walkName answers.room name c with
      | none => (walkAbort c.scanError,.ended .abort)
      | some c => match answers.info with
        | .ok => walkEntry conf kind sub c
        | .failed => (c.scanError,.going)
        | _ => (c,.going)

def walkStart (tree : Tree) (c : Cursor) : Cursor × Turned :=
  let c := {c with started := true, scanErrors := 0}
  match walkName tree.room conf.root c with
  | none => (c.scanError,.ended .abort)
  | some c => match walkOpen tree.dir tree.listing c with
    | (.ok, c) => (c,.going)
    | (rc, c) => (c,.ended rc)

def walkTurn (tree : Tree) (c : Cursor) : Cursor × Turned :=
  if !c.started then walkStart conf tree c
  else match c.frames with
    | [] => (c,.ended (if c.scanErrors ≠ 0 then .error else .ok))
    | frame :: parents => walkRead conf frame parents c

end walk
end CachePurge
