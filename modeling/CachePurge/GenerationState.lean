import CachePurge.General.SiblingTrie
import CachePurge.KeyCodec

/-! Shared generation state of one namespace, as ngx_http_cache_purge_generation_s
and its slab hold it. Rules are byte tries in first-child/next-sibling form;
a cell keeps its slab address, and the allocated links are the two chains. -/
namespace CachePurge
open General

structure RuleCell where
  address : Nat
  generation : UInt64
  deriving DecidableEq, Repr

abbrev Rules := SiblingTrie UInt8 RuleCell

structure Generation where
  serial : UInt64
  baseline : UInt64
  epoch : Epoch
  exactRules : Rules
  prefixRules : Rules
  allocated : List Nat
  tail : Option Nat
  garbage : List Nat
  deriving DecidableEq, Repr

structure Zone where
  shared : Generation
  live : List Nat
  deriving DecidableEq, Repr

/- ngx_http_cache_purge_generation_init for a zone that does not exist yet. -/
def generationInit (epoch : Epoch) : Zone :=
  ⟨⟨1,1,epoch,.null,.null,[],none,[]⟩,[]⟩

def lookupPass (fold : Bool) : Bytes → Rules → UInt64 → UInt64
  | [], _, generation => generation
  | c :: rest, node, generation =>
    match node.find (if fold then tolower c else c) with
    | none => generation
    | some (cell,child) => lookupPass fold rest child
        (if (fold || rest.isEmpty) && generation < cell.generation then cell.generation
          else generation)

def generationLookup (state : Generation) (key : Bytes) : UInt64 :=
  lookupPass true key state.prefixRules (lookupPass false key state.exactRules state.baseline)

def spliceGarbage (state : Generation) : List Nat :=
  match state.tail with
  | some last => if last ∈ state.allocated
      then state.allocated.takeWhile (· != last) ++ last :: state.garbage else state.allocated
  | none => state.allocated

def generationReset (state : Generation) : Generation :=
  let state := {state with baseline := state.serial, exactRules := .null, prefixRules := .null}
  if state.allocated.isEmpty then state
  else {state with garbage := spliceGarbage state, allocated := [], tail := none}

def reclaimGarbage : Nat → Zone → Zone
  | 0, z => z
  | n + 1, z => match z.shared.garbage with
    | [] => z
    | node :: rest =>
      reclaimGarbage n ⟨{z.shared with garbage := rest},z.live.erase node⟩

/- ngx_slab_calloc_locked and the bookkeeping around it. The slab's answers to
the requests of one call come from the environment; it never hands out a live cell. -/
def ruleAlloc : Zone × List (Option Nat) → Option (RuleCell × Zone × List (Option Nat))
  | (z,some address :: answers) =>
    if address ∈ z.live then none
    else some (⟨address,0⟩,⟨{z.shared with
      allocated := address :: z.shared.allocated,
      tail := z.shared.tail.or (some address)},address :: z.live⟩,answers)
  | _ => none

structure Invalidation where
  key : Bytes
  all : Bool
  expected : Option Bytes
  locked : Bool
  cells : List (Option Nat)
  deriving DecidableEq, Repr

namespace Invalidation

def ranged (call : Invalidation) : Bool :=
  call.expected.isNone && call.key.getLast? == some star

def selector (call : Invalidation) : Bytes := if call.ranged then call.key.dropLast else call.key

def path (call : Invalidation) : Bytes := if call.ranged then lowered call.selector else call.selector

end Invalidation

def expectedMatches (name : Name) (call : Invalidation) (state : Generation) : Bool :=
  match call.expected with
  | none => true
  | some expected => match generationDecode name expected with
    | none => false
    | some d => d.logical == call.key && d.epoch == state.epoch.bytes &&
        d.generation == generationLookup state call.key

def insertRule (call : Invalidation) (z : Zone) :
    Option Rules × Zone × List (Option Nat) :=
  SiblingTrie.insert ruleAlloc (fun cell => {cell with generation := z.shared.serial}) call.path
    (if call.ranged then z.shared.prefixRules else z.shared.exactRules) (z,call.cells)

def generationPublish (call : Invalidation) (z : Zone) : Zone :=
  let z := reclaimGarbage 64 z
  let z := {z with shared := {z.shared with serial := z.shared.serial + 1}}
  if call.all || call.selector.isEmpty then {z with shared := generationReset z.shared}
  else match insertRule call z with
    | (none, z, _) => {z with shared := generationReset z.shared}
    | (some rules, z, _) =>
      if call.ranged then {z with shared := {z.shared with prefixRules := rules}}
      else {z with shared := {z.shared with exactRules := rules}}

def generationInvalidate (name : Name) (call : Invalidation) (z : Zone) : Rc × Zone :=
  if logicalKeyMax < call.key.length then (.error,z)
  else if !call.locked then (.again,z)
  else if !expectedMatches name call z.shared then (.declined,z)
  else if z.shared.serial = 0xFFFFFFFFFFFFFFFF then (.error,z)
  else (.ok,generationPublish call z)

def generationStale (name : Name) (z : Zone) (key : Bytes) : Rc :=
  match generationDecode name key with
  | none => .declined
  | some d =>
    if d.epoch != z.shared.epoch.bytes || d.generation < generationLookup z.shared d.logical
    then .ok else .declined

def generationCurrent (name : Name) (z : Zone) (key : Bytes) : Rc × Option Bytes :=
  match generationDecode name key with
  | none => (.declined,none)
  | some d =>
    if d.epoch == z.shared.epoch.bytes && d.generation == generationLookup z.shared d.logical
    then (.ok,some d.logical) else (.declined,some d.logical)

end CachePurge
