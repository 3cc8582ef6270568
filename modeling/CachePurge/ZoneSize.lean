import CachePurge.General.Widths
import CachePurge.Queue
import CachePurge.Response

/-! The size of the shared zone that holds the queue: ngx_http_cache_purge_init_main_conf.
The size is worked out in size_t from the native layout of the records, the capacity of the
queue and the paths of the configuration, and handed to ngx_shared_memory_add. -/
namespace CachePurge
open General

structure Layout where
  size : Nat
  align : Nat
  deriving DecidableEq, Repr

def Layout.array (n : Nat) (element : Layout) : Layout := ⟨n * element.size,element.align⟩

def Layout.struct (members : List Layout) : Layout :=
  let align := members.foldl (fun widest member => max widest member.align) 1
  let offset := members.foldl (fun offset member => alignTo offset member.align + member.size) 0
  ⟨alignTo offset align,align⟩

/- Where the platforms differ: the bytes of a pointer, which are those of size_t and
ngx_uint_t, and the alignment of a uint64_t. -/
structure Abi where
  word : Nat
  wideAlign : Nat
  wordKnown : word = 4 ∨ word = 8
  wideKnown : wideAlign = 4 ∨ wideAlign = 8
  deriving DecidableEq, Repr

namespace Abi
variable (abi : Abi)

def bits : Nat := 8 * abi.word
abbrev SizeT := BitVec abi.bits

def uint : Layout := ⟨abi.word,abi.word⟩
def pointer : Layout := ⟨abi.word,abi.word⟩
def wide : Layout := ⟨8,abi.wideAlign⟩
def pid : Layout := ⟨4,4⟩
def uchar : Layout := ⟨1,1⟩

def str : Layout := .struct [abi.uint,abi.pointer]
def link : Layout := .struct [abi.pointer,abi.pointer]
def rbtreeNode : Layout := .struct [abi.uint,abi.pointer,abi.pointer,abi.pointer,uchar,uchar]
def rbtree : Layout := .struct [abi.pointer,abi.pointer,abi.pointer]
def strNode : Layout := .struct [abi.rbtreeNode,abi.str]

/- ngx_http_cache_purge_queue_item_t -/
def queueItem : Layout := .struct
  [abi.strNode,abi.link,abi.str,abi.uint,abi.uint,abi.uint,pid,abi.uint,abi.wide,abi.uint,abi.uint,abi.uint,
    abi.pointer,abi.pointer,abi.pointer]

def stats : Layout := .struct [abi.uint,.array 17 abi.wide]

def path : Layout := .struct [abi.str,abi.pointer,abi.uint,abi.rbtree,abi.rbtreeNode,abi.pointer]

def queue : Layout := .struct
  [abi.uint,abi.link,abi.link,abi.uint,abi.uint,abi.uint,.array maxProcesses pid,.array maxProcesses abi.wide,
    .array maxProcesses abi.uint,abi.pointer,abi.uint,abi.pointer,abi.pointer]

def sizeT (n : Nat) : abi.SizeT := BitVec.ofNat abi.bits n

end Abi

structure Host (bits : Nat) where
  pagesize : BitVec bits
  cachelineSize : BitVec bits
  pagePower : ∃ k, pagesize.toNat = 2 ^ k

/- ngx_path_t, of which a cache has both a manager and a loader. -/
structure ConfPath (bits : Nat) where
  manager : Bool
  loader : Bool
  nameLen : BitVec bits
  deriving DecidableEq, Repr

def ConfPath.isCache {bits : Nat} (p : ConfPath bits) : Bool := p.manager && p.loader

structure ShmZone (bits : Nat) where
  ours : Bool
  name : Bytes
  size : BitVec bits
  deriving DecidableEq, Repr

structure MainConf (bits : Nat) where
  backgroundPurge : Option Bool
  queueSize : BitVec bits
  batchSize : BitVec bits
  throttleMs : BitVec bits
  varyAware : Option Bool
  statusLocations : Nat
  namespaces : Nat
  paths : List (ConfPath bits)
  deriving DecidableEq, Repr

inductive ConfError (bits : Nat) where
  | queueSizeZero
  | batchSizeZero
  | throttleRange (throttleMs : BitVec bits)
  | queueSizeOverflow (queueSize : BitVec bits)
  | metadataOverflow
  | zoneOverflow
  | sizeChange (old new : BitVec bits)
  | zoneRefused
  deriving DecidableEq, Repr

def unsetOr {bits : Nat} (value default_ : BitVec bits) : BitVec bits :=
  if value = BitVec.allOnes bits then default_ else value

def batchSizeMax : Nat := 64

def MainConf.initialized {bits : Nat} (conf : MainConf bits) : MainConf bits := { conf with
  backgroundPurge := some (conf.backgroundPurge.getD false)
  queueSize := unsetOr conf.queueSize (BitVec.ofNat bits 1024)
  batchSize := unsetOr conf.batchSize (BitVec.ofNat bits 10)
  throttleMs := unsetOr conf.throttleMs (BitVec.ofNat bits 10)
  varyAware := some (conf.varyAware.getD false) }

def throttleMax (bits : Nat) : BitVec bits := BitVec.allOnes bits / BitVec.ofNat bits 20

def settingsError {bits : Nat} (conf : MainConf bits) : Option (ConfError bits) :=
  if conf.queueSize = 0 then some .queueSizeZero
  else if conf.batchSize = 0 then some .batchSizeZero
  else if conf.throttleMs = 0 ∨ conf.throttleMs > throttleMax bits then some (.throttleRange conf.throttleMs)
  else none

def MainConf.clamped {bits : Nat} (conf : MainConf bits) : MainConf bits :=
  if conf.batchSize > BitVec.ofNat bits batchSizeMax then
    { conf with batchSize := BitVec.ofNat bits batchSizeMax }
  else conf

def batchWarning {bits : Nat} (conf : MainConf bits) : Option Bytes :=
  if conf.queueSize ≠ 0 ∧ conf.batchSize > BitVec.ofNat bits batchSizeMax then
    some (text "ngx_cache_purge: cache_purge_batch_size " ++ decimal conf.batchSize.toNat ++ text " exceeds " ++
      decimal batchSizeMax ++ text ", using " ++ decimal batchSizeMax)
  else none

def ConfError.message {bits : Nat} : ConfError bits → Option Bytes
  | .queueSizeZero => some (text "ngx_cache_purge: cache_purge_queue_size must be greater than 0")
  | .batchSizeZero => some (text "ngx_cache_purge: cache_purge_batch_size must be greater than 0")
  | .throttleRange ms => some (text "ngx_cache_purge: cache_purge_throttle_ms " ++ decimal ms.toNat ++
      text " is out of range, expected 1 to " ++ decimal (throttleMax bits).toNat ++ text " ms")
  | .queueSizeOverflow n => some (text "ngx_cache_purge: cache_purge_queue_size " ++ decimal n.toNat ++
      text " overflows shared memory size calculation")
  | .sizeChange old new => some (text "ngx_cache_purge: cache_purge_queue_size changes the shared zone size from " ++
      decimal old.toNat ++ text " to " ++ decimal new.toNat ++
      text " bytes, which would abandon queued purges; drain the queue and restart nginx")
  | .metadataOverflow | .zoneOverflow | .zoneRefused => none

def zoneName : Bytes := text "cache_purge_queue"

def oldZone {bits : Nat} (oldCycle : Option (List (List (ShmZone bits)))) : Option (ShmZone bits) :=
  (oldCycle.getD []).findSome? fun part => part.find? fun zone => zone.ours && zone.name == zoneName

section Sizing
variable {abi : Abi} {ε : Type}

def Host.slotAlign (host : Host abi.bits) : abi.SizeT :=
  if host.cachelineSize < abi.sizeT 64 then abi.sizeT 64 else host.cachelineSize

def taskStride : Computed abi.bits ε abi.SizeT := do
  let key ← Computed.add (abi.sizeT keyMaxLen) (abi.sizeT 1)
  let keys ← Computed.mul (abi.sizeT 2) key
  let allowance ← Computed.add (abi.sizeT abi.queueItem.size) keys
  Computed.mul (abi.sizeT 2) allowance

def queueLimit (host : Host abi.bits) (stride : abi.SizeT) : Computed abi.bits ε abi.SizeT := do
  let margin ← Computed.sub host.pagesize (abi.sizeT 1)
  let room ← Computed.sub (BitVec.allOnes abi.bits) margin
  let room ← Computed.sub room (abi.sizeT abi.queue.size)
  return room / stride

def queueBytes (host : Host abi.bits) (queueSize : abi.SizeT) : Computed abi.bits (ConfError abi.bits) abi.SizeT := do
  let stride ← taskStride
  let limit ← queueLimit host stride
  if queueSize > limit then
    Computed.fail (.queueSizeOverflow queueSize)
  else
    let tasks ← Computed.mul queueSize stride
    Computed.add (abi.sizeT abi.queue.size) tasks

def pathBytes (host : Host abi.bits) (p : ConfPath abi.bits) : Computed abi.bits ε abi.SizeT := do
  let slot ← Computed.align (abi.sizeT abi.stats.size) host.slotAlign
  let slots ← Computed.mul slot (abi.sizeT maxProcesses)
  let bytes ← Computed.add slots host.slotAlign
  let bytes ← Computed.add bytes (abi.sizeT abi.path.size)
  let bytes ← Computed.add bytes p.nameLen
  Computed.add bytes (abi.sizeT 1)

def addPath (host : Host abi.bits) (metadata : abi.SizeT) (p : ConfPath abi.bits) :
    Computed abi.bits (ConfError abi.bits) abi.SizeT :=
  if p.isCache then do
    let bytes ← pathBytes host p
    let room ← Computed.sub (BitVec.allOnes abi.bits) metadata
    if bytes > room / abi.sizeT 2 then
      Computed.fail .metadataOverflow
    else
      let twice ← Computed.mul (abi.sizeT 2) bytes
      Computed.add metadata twice
  else pure metadata

def wholeBytes (host : Host abi.bits) (shmSize metadata : abi.SizeT) :
    Computed abi.bits (ConfError abi.bits) abi.SizeT := do
  let margin ← Computed.sub host.pagesize (abi.sizeT 1)
  let most ← Computed.sub (BitVec.allOnes abi.bits) margin
  if metadata > most then
    Computed.fail .zoneOverflow
  else
    let left ← Computed.sub (BitVec.allOnes abi.bits) metadata
    let margin ← Computed.sub host.pagesize (abi.sizeT 1)
    let left ← Computed.sub left margin
    if shmSize > left then
      Computed.fail .zoneOverflow
    else
      Computed.add shmSize metadata

def shmMinPages : Nat := 8

def pagedSize (host : Host abi.bits) (shmSize : abi.SizeT) : Computed abi.bits ε abi.SizeT := do
  let shmSize ← Computed.align shmSize host.pagesize
  let least ← Computed.mul (abi.sizeT shmMinPages) host.pagesize
  if shmSize < least then
    Computed.mul (abi.sizeT shmMinPages) host.pagesize
  else
    return shmSize

def zoneSize (host : Host abi.bits) (queueSize : abi.SizeT) (paths : List (ConfPath abi.bits)) :
    Computed abi.bits (ConfError abi.bits) abi.SizeT := do
  let shmSize ← queueBytes host queueSize
  let metadata ← paths.foldlM (addPath host) (abi.sizeT 0)
  let shmSize ← wholeBytes host shmSize metadata
  pagedSize host shmSize

def zoneRequest (host : Host abi.bits) (conf : MainConf abi.bits) (oldCycle : Option (List (List (ShmZone abi.bits)))) :
    Computed abi.bits (ConfError abi.bits) (MainConf abi.bits × Option abi.SizeT) :=
  let conf := conf.initialized
  match settingsError conf with
  | some e => Computed.fail e
  | none =>
    let conf := conf.clamped
    let old := oldZone oldCycle
    -- Existing tasks still drain after new tasks are disabled.
    if conf.backgroundPurge ≠ some true ∧ conf.namespaces = 0 ∧ old.isNone ∧ conf.statusLocations = 0 then
      pure (conf,none)
    else do
      let size ← zoneSize host conf.queueSize conf.paths
      match old with
      | none => pure (conf,some size)
      | some zone =>
        if size ≠ zone.size then
          Computed.fail (.sizeChange zone.size size)
        else
          pure (conf,some size)

def initMainConf {ζ : Type} (sharedMemoryAdd : abi.SizeT → Option ζ) (host : Host abi.bits) (conf : MainConf abi.bits)
    (oldCycle : Option (List (List (ShmZone abi.bits)))) :
    Computed abi.bits (ConfError abi.bits) (MainConf abi.bits × Option ζ) := do
  let (conf,size) ← zoneRequest host conf oldCycle
  match size with
  | none => pure (conf,none)
  | some size =>
    match sharedMemoryAdd size with
    | none => Computed.fail .zoneRefused
    | some zone => pure (conf,some zone)

def taskAllowance (abi : Abi) : Nat := 2 * (abi.queueItem.size + 2 * (keyMaxLen + 1))

def pathMetadata (host : Host abi.bits) (p : ConfPath abi.bits) : Nat :=
  alignTo abi.stats.size host.slotAlign.toNat * maxProcesses + host.slotAlign.toNat + abi.path.size + p.nameLen.toNat + 1

def cacheMetadata (host : Host abi.bits) (paths : List (ConfPath abi.bits)) : Nat :=
  ((paths.filter ConfPath.isCache).map (pathMetadata host)).sum

def zoneNeeds (host : Host abi.bits) (queueSize : Nat) (paths : List (ConfPath abi.bits)) : Nat :=
  abi.queue.size + queueSize * taskAllowance abi + 2 * cacheMetadata host paths

theorem cacheMetadataCons (host : Host abi.bits) (p : ConfPath abi.bits) (paths : List (ConfPath abi.bits)) :
    cacheMetadata host (p :: paths) = (if p.isCache then pathMetadata host p else 0) + cacheMetadata host paths := by
  cases h : p.isCache <;> simp [cacheMetadata,h]

structure Abi.Small (abi : Abi) : Prop where
  bits : 32 ≤ abi.bits
  width : 2 ^ 32 ≤ 2 ^ abi.bits
  queue : abi.queue.size < 2 ^ 15
  item : abi.queueItem.size < 2 ^ 10
  stats : abi.stats.size < 2 ^ 10
  path : abi.path.size < 2 ^ 10

theorem abiSmall (abi : Abi) : abi.Small := by
  obtain ⟨word,wideAlign,wordKnown,wideKnown⟩ := abi
  have bits : 32 ≤ 8 * word := by rcases wordKnown with rfl | rfl <;> decide
  refine ⟨bits,Nat.pow_le_pow_right (by decide) bits,?_,?_,?_,?_⟩ <;>
    rcases wordKnown with rfl | rfl <;> rcases wideKnown with rfl | rfl <;> decide

theorem sizeTValue (abi : Abi) {n : Nat} (small : n < 2 ^ 15) : (abi.sizeT n).toNat = n := by
  have width := (abiSmall abi).width
  exact Nat.mod_eq_of_lt (by omega)

theorem oneValue (abi : Abi) : (abi.sizeT 1).toNat = 1 := sizeTValue abi (by decide)

theorem twoValue (abi : Abi) : (abi.sizeT 2).toNat = 2 := sizeTValue abi (by decide)

variable {excused : Operation abi.bits → Prop} (host : Host abi.bits)

theorem pageHalf : 0 < host.pagesize.toNat ∧ host.pagesize.toNat * 2 ≤ 2 ^ abi.bits := by
  obtain ⟨k,power⟩ := host.pagePower
  have below : k < abi.bits := by
    have within := host.pagesize.isLt
    rw [power] at within
    exact (Nat.pow_lt_pow_iff_right (by decide)).mp within
  rw [power]
  refine ⟨Nat.two_pow_pos k,?_⟩
  rw [← Nat.pow_succ]
  exact Nat.pow_le_pow_right (by decide) below

theorem slotAlignLeast : 64 ≤ host.slotAlign.toNat := by
  have value := sizeTValue abi (show 64 < 2 ^ 15 by decide)
  unfold Host.slotAlign
  split
  · omega
  · rename_i larger
    rw [BitVec.lt_def] at larger
    omega

theorem taskStrideSound :
    Computed.Sound excused (taskStride : Computed abi.bits ε abi.SizeT) (fun stride => stride.toNat = taskAllowance abi) := by
  have small := abiSmall abi
  have width := small.width
  have item := small.item
  have itemValue := sizeTValue abi (show abi.queueItem.size < 2 ^ 15 by omega)
  have keyValue := sizeTValue abi (show keyMaxLen < 2 ^ 15 by decide)
  have one := oneValue abi
  have two := twoValue abi
  have keyLength : keyMaxLen = 512 := rfl
  unfold taskStride taskAllowance
  apply Computed.soundBind (Computed.soundAdd (by omega))
  intro key hkey
  apply Computed.soundBind (Computed.soundMul (by rw [two]; omega))
  intro keys hkeys
  apply Computed.soundBind (Computed.soundAdd (by rw [hkeys,two]; omega))
  intro allowance hallowance
  apply Computed.soundWeaken (Computed.soundMul (by rw [hallowance,hkeys,two]; omega))
  intro stride hstride
  rw [hstride,hallowance,hkeys,hkey,two,itemValue,keyValue,one]

theorem queueLimitSound (stride : abi.SizeT) :
    Computed.Sound excused (queueLimit host stride : Computed abi.bits ε abi.SizeT)
      (fun limit => limit.toNat = (2 ^ abi.bits - 1 - (host.pagesize.toNat - 1) - abi.queue.size) / stride.toNat) := by
  have small := abiSmall abi
  have width := small.width
  have queue := small.queue
  have half := pageHalf host
  have queueValue := sizeTValue abi queue
  have one := oneValue abi
  have most : (BitVec.allOnes abi.bits).toNat = 2 ^ abi.bits - 1 := BitVec.toNat_allOnes
  unfold queueLimit
  apply Computed.soundBind (Computed.soundSub (by omega))
  intro margin hmargin
  apply Computed.soundBind (Computed.soundSub (by omega))
  intro room hroom
  apply Computed.soundBind (Computed.soundSub (by omega))
  intro rest hrest
  apply Computed.soundPure
  rw [BitVec.toNat_udiv,hrest,hroom,hmargin,most,queueValue,one]

theorem queueBytesSound (queueSize : abi.SizeT) :
    Computed.Sound excused (queueBytes host queueSize)
      (fun bytes => bytes.toNat = abi.queue.size + queueSize.toNat * taskAllowance abi) := by
  have width := (abiSmall abi).width
  have half := pageHalf host
  have queueValue := sizeTValue abi (abiSmall abi).queue
  have queue := (abiSmall abi).queue
  unfold queueBytes
  apply Computed.soundBind taskStrideSound
  intro stride hstride
  apply Computed.soundBind (queueLimitSound host stride)
  intro limit hlimit
  split
  · exact Computed.soundFail
  · rename_i within
    have bound : queueSize.toNat * stride.toNat ≤ 2 ^ abi.bits - 1 - (host.pagesize.toNat - 1) - abi.queue.size := by
      have low : queueSize.toNat ≤ limit.toNat := by
        simp only [gt_iff_lt,BitVec.lt_def] at within
        omega
      rw [hlimit] at low
      exact (Nat.mul_le_mul_right _ low).trans (Nat.div_mul_le_self _ _)
    apply Computed.soundBind (Computed.soundMul (by omega))
    intro tasks htasks
    apply Computed.soundWeaken (Computed.soundAdd (by omega))
    intro bytes hbytes
    rw [hbytes,htasks,queueValue,hstride]

def ShortName (host : Host abi.bits) (p : ConfPath abi.bits) : Prop := p.isCache → pathMetadata host p < 2 ^ abi.bits

theorem pathBytesSound {p : ConfPath abi.bits} (short : pathMetadata host p < 2 ^ abi.bits) :
    Computed.Sound excused (pathBytes host p : Computed abi.bits ε abi.SizeT)
      (fun bytes => bytes.toNat = pathMetadata host p) := by
  have small := abiSmall abi
  have stats := small.stats
  have path := small.path
  have least := slotAlignLeast host
  have statsValue := sizeTValue abi (show abi.stats.size < 2 ^ 15 by omega)
  have pathValue := sizeTValue abi (show abi.path.size < 2 ^ 15 by omega)
  have slotsValue := sizeTValue abi (show maxProcesses < 2 ^ 15 by decide)
  have one := oneValue abi
  have unitBound := host.slotAlign.isLt
  have bits : 0 < abi.bits := lt_of_lt_of_le (by decide) small.bits
  unfold pathMetadata at short ⊢
  -- A slot that wrapped would already be past what the metadata may be.
  have fits : abi.stats.size + (host.slotAlign.toNat - 1) < 2 ^ abi.bits := by
    by_contra past
    have far : 2 ^ abi.bits ≤ alignTo abi.stats.size host.slotAlign.toNat := clearedPast (by omega) (by omega)
    have slots := Nat.le_mul_of_pos_right (alignTo abi.stats.size host.slotAlign.toNat) (show 0 < maxProcesses by decide)
    omega
  unfold pathBytes
  apply Computed.soundBind (Computed.soundAlign bits (by omega) (by rw [statsValue]; exact fits))
  intro slot hslot
  rw [statsValue] at hslot
  apply Computed.soundBind (Computed.soundMul (by rw [hslot,slotsValue]; omega))
  intro slots hslots
  rw [hslot,slotsValue] at hslots
  apply Computed.soundBind (Computed.soundAdd (by omega))
  intro sum hsum
  apply Computed.soundBind (Computed.soundAdd (by omega))
  intro named hnamed
  apply Computed.soundBind (Computed.soundAdd (by omega))
  intro full hfull
  apply Computed.soundWeaken (Computed.soundAdd (by omega))
  intro bytes hbytes
  omega

theorem addPathSound {p : ConfPath abi.bits} (short : ShortName host p) (metadata : abi.SizeT) :
    Computed.Sound excused (addPath host metadata p)
      (fun total => total.toNat = metadata.toNat + 2 * (if p.isCache then pathMetadata host p else 0)) := by
  have two := twoValue abi
  have most : (BitVec.allOnes abi.bits).toNat = 2 ^ abi.bits - 1 := BitVec.toNat_allOnes
  have bound := metadata.isLt
  unfold addPath
  split
  · rename_i cache
    apply Computed.soundBind (pathBytesSound host (short cache))
    intro bytes hbytes
    apply Computed.soundBind (Computed.soundSub (by omega))
    intro room hroom
    split
    · exact Computed.soundFail
    · rename_i within
      have low : 2 * bytes.toNat ≤ room.toNat := by
        rw [gt_iff_lt,BitVec.lt_def,BitVec.toNat_udiv,two] at within
        omega
      apply Computed.soundBind (Computed.soundMul (by rw [two]; omega))
      intro twice htwice
      rw [two] at htwice
      apply Computed.soundWeaken (Computed.soundAdd (by omega))
      intro total htotal
      rw [htotal,htwice,hbytes]
  · exact Computed.soundPure (by simp)

theorem pathsSound (paths : List (ConfPath abi.bits)) (short : ∀ p ∈ paths, ShortName host p) :
    Computed.Sound excused (paths.foldlM (addPath host) (abi.sizeT 0))
      (fun metadata => metadata.toNat = 2 * cacheMetadata host paths) := by
  have zero := sizeTValue abi (show 0 < 2 ^ 15 by decide)
  let inv (rest : List (ConfPath abi.bits)) (metadata : abi.SizeT) : Prop :=
    (∀ p ∈ rest, ShortName host p) ∧ metadata.toNat + 2 * cacheMetadata host rest = 2 * cacheMetadata host paths
  have step : ∀ p rest metadata, inv (p :: rest) metadata → Computed.Sound excused (addPath host metadata p) (inv rest) := by
    intro p rest metadata ⟨names,sum⟩
    rw [List.forall_mem_cons] at names
    rw [cacheMetadataCons] at sum
    apply Computed.soundWeaken (addPathSound host names.1 metadata)
    intro total htotal
    exact ⟨names.2,by omega⟩
  apply Computed.soundWeaken (Computed.soundFold inv step paths (abi.sizeT 0) ⟨short,by omega⟩)
  intro metadata ⟨_,sum⟩
  have none_ : cacheMetadata host [] = 0 := rfl
  omega

theorem wholeBytesSound (shmSize metadata : abi.SizeT) :
    Computed.Sound excused (wholeBytes host shmSize metadata)
      (fun whole => whole.toNat = shmSize.toNat + metadata.toNat ∧
        whole.toNat + (host.pagesize.toNat - 1) < 2 ^ abi.bits) := by
  have half := pageHalf host
  have one := oneValue abi
  have most : (BitVec.allOnes abi.bits).toNat = 2 ^ abi.bits - 1 := BitVec.toNat_allOnes
  unfold wholeBytes
  apply Computed.soundBind (Computed.soundSub (by omega))
  intro margin hmargin
  apply Computed.soundBind (Computed.soundSub (by omega))
  intro ceiling hceiling
  split
  · exact Computed.soundFail
  · rename_i below
    simp only [gt_iff_lt,BitVec.lt_def] at below
    apply Computed.soundBind (Computed.soundSub (by omega))
    intro left hleft
    apply Computed.soundBind (Computed.soundSub (by omega))
    intro margin' hmargin'
    apply Computed.soundBind (Computed.soundSub (by omega))
    intro rest hrest
    split
    · exact Computed.soundFail
    · rename_i within
      simp only [gt_iff_lt,BitVec.lt_def] at within
      apply Computed.soundWeaken (Computed.soundAdd (by omega))
      intro whole hwhole
      omega

def leastPages (host : Host abi.bits) : Operation abi.bits := ⟨.mul,abi.sizeT shmMinPages,host.pagesize⟩

theorem leastPagesExact (fits : 8 * host.pagesize.toNat < 2 ^ abi.bits) :
    (leastPages host).Exact ∧ (leastPages host).value.toNat = 8 * host.pagesize.toNat := by
  have eight : (abi.sizeT shmMinPages).toNat = 8 := sizeTValue abi (show 8 < 2 ^ 15 by decide)
  have product : (abi.sizeT shmMinPages).toNat * host.pagesize.toNat < 2 ^ abi.bits := by rw [eight]; exact fits
  refine ⟨Operation.exactMul product,?_⟩
  rw [← eight]
  exact BitVec.toNat_mul_of_lt product

theorem leastPagesDivides : host.pagesize.toNat ∣ (leastPages host).value.toNat := by
  obtain ⟨k,power⟩ := host.pagePower
  have below := host.pagesize.isLt
  rw [power] at below ⊢
  have divides : 2 ^ k ∣ 2 ^ abi.bits :=
    Nat.pow_dvd_pow 2 ((Nat.pow_lt_pow_iff_right (by decide)).mp below).le
  change 2 ^ k ∣ (abi.sizeT shmMinPages * host.pagesize).toNat
  rw [BitVec.toNat_mul,power]
  exact (Nat.dvd_mod_iff divides).mpr (Nat.dvd_mul_left _ _)

theorem pagedSizeSound {shmSize : abi.SizeT} (fits : shmSize.toNat + (host.pagesize.toNat - 1) < 2 ^ abi.bits)
    (excuse : excused (leastPages host)) :
    Computed.Sound excused (pagedSize host shmSize : Computed abi.bits ε abi.SizeT)
      (fun size => host.pagesize.toNat ∣ size.toNat ∧ shmSize.toNat ≤ size.toNat ∧
        (leastPages host).value.toNat ≤ size.toNat) := by
  have bits : 0 < abi.bits := lt_of_lt_of_le (by decide) (abiSmall abi).bits
  unfold pagedSize
  apply Computed.soundBind (Computed.soundAlign bits (pageHalf host).1 fits)
  intro paged hpaged
  have divides : host.pagesize.toNat ∣ paged.toNat ∧ shmSize.toNat ≤ paged.toNat := by
    obtain ⟨k,power⟩ := host.pagePower
    rw [hpaged,power]
    exact ⟨alignToDivides _ k,alignToHolds _ k⟩
  apply Computed.soundBind (Computed.soundCompute (Or.inr excuse))
  intro least hleast
  split
  · rename_i short
    rw [BitVec.lt_def,hleast] at short
    apply Computed.soundWeaken (Computed.soundCompute (Or.inr excuse))
    intro size hsize
    rw [hsize]
    exact ⟨leastPagesDivides host,divides.2.trans short.le,le_refl _⟩
  · rename_i enough
    rw [BitVec.lt_def,hleast] at enough
    exact Computed.soundPure ⟨divides.1,divides.2,not_lt.mp enough⟩

theorem zoneSizeSound (queueSize : abi.SizeT) (paths : List (ConfPath abi.bits)) (short : ∀ p ∈ paths, ShortName host p)
    (excuse : excused (leastPages host)) :
    Computed.Sound excused (zoneSize host queueSize paths)
      (fun size => host.pagesize.toNat ∣ size.toNat ∧ zoneNeeds host queueSize.toNat paths ≤ size.toNat ∧
        (leastPages host).value.toNat ≤ size.toNat) := by
  unfold zoneSize zoneNeeds
  apply Computed.soundBind (queueBytesSound host queueSize)
  intro tasks htasks
  apply Computed.soundBind (pathsSound host paths short)
  intro metadata hmetadata
  apply Computed.soundBind (wholeBytesSound host tasks metadata)
  intro whole ⟨hwhole,fits⟩
  apply Computed.soundWeaken (pagedSizeSound host fits excuse)
  intro size ⟨divides,holds,least⟩
  exact ⟨divides,by omega,least⟩

theorem defaultsAccepted {conf : MainConf abi.bits} (queueSize : conf.queueSize = BitVec.allOnes abi.bits)
    (batchSize : conf.batchSize = BitVec.allOnes abi.bits) (throttleMs : conf.throttleMs = BitVec.allOnes abi.bits) :
    settingsError conf.initialized = none ∧ conf.initialized.clamped = conf.initialized := by
  have capacity := sizeTValue abi (show 1024 < 2 ^ 15 by decide)
  have ten := sizeTValue abi (show 10 < 2 ^ 15 by decide)
  have most := sizeTValue abi (show batchSizeMax < 2 ^ 15 by decide)
  have twenty := sizeTValue abi (show 20 < 2 ^ 15 by decide)
  have width := (abiSmall abi).width
  have queue : abi.sizeT 1024 ≠ 0 := by
    intro none_
    rw [none_] at capacity
    simp at capacity
  have small : abi.sizeT 10 ≠ 0 := by
    intro none_
    rw [none_] at ten
    simp at ten
  have limit : ¬ abi.sizeT 10 > throttleMax abi.bits := by
    have ceiling : (throttleMax abi.bits).toNat = (2 ^ abi.bits - 1) / 20 := by
      rw [throttleMax,BitVec.toNat_udiv,BitVec.toNat_allOnes]
      exact congrArg _ twenty
    rw [gt_iff_lt,BitVec.lt_def,ceiling]
    omega
  have batch : ¬ abi.sizeT 10 > abi.sizeT batchSizeMax := by
    rw [gt_iff_lt,BitVec.lt_def,ten,most]
    decide
  have queueIs : conf.initialized.queueSize = abi.sizeT 1024 := if_pos queueSize
  have batchIs : conf.initialized.batchSize = abi.sizeT 10 := if_pos batchSize
  have throttleIs : conf.initialized.throttleMs = abi.sizeT 10 := if_pos throttleMs
  constructor
  · rw [settingsError,queueIs,batchIs,throttleIs,if_neg queue,if_neg small,if_neg (not_or.mpr ⟨small,limit⟩)]
  · rw [MainConf.clamped,batchIs]
    exact if_neg batch

theorem clampedWarned {bits : Nat} {conf : MainConf bits} (capacity : conf.queueSize ≠ 0)
    (changed : conf.clamped ≠ conf) : (batchWarning conf).isSome := by
  unfold MainConf.clamped at changed
  unfold batchWarning
  split at changed
  · rename_i large
    rw [if_pos ⟨capacity,large⟩]
    rfl
  · exact absurd rfl changed

theorem messageNames {bits : Nat} {e : ConfError bits} {message : Bytes} (said : e.message = some message) :
    text "ngx_cache_purge: cache_purge_" <+: message := by
  have named (s : String) (begins : text "ngx_cache_purge: cache_purge_" <+: text s) (rest : Bytes) :
      text "ngx_cache_purge: cache_purge_" <+: text s ++ rest := begins.trans (List.prefix_append _ _)
  cases e with
  | queueSizeZero =>
    cases said
    decide
  | batchSizeZero =>
    cases said
    decide
  | throttleRange ms =>
    cases said
    simp only [List.append_assoc]
    exact named "ngx_cache_purge: cache_purge_throttle_ms " (by decide) _
  | queueSizeOverflow n =>
    cases said
    simp only [List.append_assoc]
    exact named "ngx_cache_purge: cache_purge_queue_size " (by decide) _
  | sizeChange old new =>
    cases said
    simp only [List.append_assoc]
    exact named "ngx_cache_purge: cache_purge_queue_size changes the shared zone size from " (by decide) _
  | metadataOverflow | zoneOverflow | zoneRefused => contradiction

theorem clampedKeeps {bits : Nat} (conf : MainConf bits) :
    conf.clamped.queueSize = conf.queueSize ∧ conf.clamped.paths = conf.paths := by
  unfold MainConf.clamped
  split <;> exact ⟨rfl,rfl⟩

def ZoneFits (host : Host abi.bits) (conf : MainConf abi.bits) (answer : MainConf abi.bits × Option abi.SizeT) : Prop :=
  ∀ size, answer.2 = some size → host.pagesize.toNat ∣ size.toNat ∧
    zoneNeeds host conf.initialized.queueSize.toNat conf.paths ≤ size.toNat ∧
    (leastPages host).value.toNat ≤ size.toNat

theorem zoneRequestSound {conf : MainConf abi.bits} (short : ∀ p ∈ conf.paths, ShortName host p)
    (oldCycle : Option (List (List (ShmZone abi.bits)))) (excuse : excused (leastPages host)) :
    Computed.Sound excused (zoneRequest host conf oldCycle) (ZoneFits host conf) := by
  have keeps := clampedKeeps conf.initialized
  unfold zoneRequest
  dsimp only
  cases settingsError conf.initialized with
  | some e => exact Computed.soundFail
  | none =>
    dsimp only
    split
    · apply Computed.soundPure
      intro size absent
      cases absent
    · rw [keeps.1,keeps.2]
      apply Computed.soundBind (zoneSizeSound host conf.initialized.queueSize conf.paths short excuse)
      intro size fits
      have answered : ZoneFits host conf (conf.initialized.clamped,some size) := by
        intro size' same
        cases same
        exact fits
      cases oldZone oldCycle with
      | none => exact Computed.soundPure answered
      | some zone =>
        dsimp only
        split
        · exact Computed.soundFail
        · exact Computed.soundPure answered

variable {ζ : Type}

theorem initMainConfSound {conf : MainConf abi.bits} (short : ∀ p ∈ conf.paths, ShortName host p)
    (oldCycle : Option (List (List (ShmZone abi.bits)))) (sharedMemoryAdd : abi.SizeT → Option ζ)
    (excuse : excused (leastPages host)) :
    Computed.Sound excused (initMainConf sharedMemoryAdd host conf oldCycle) (fun _ => True) := by
  unfold initMainConf
  apply Computed.soundBind (zoneRequestSound host short oldCycle excuse)
  intro answer _
  obtain ⟨conf',size⟩ := answer
  cases size with
  | none => exact Computed.soundPure trivial
  | some size =>
    dsimp only
    cases sharedMemoryAdd size with
    | none => exact Computed.soundFail
    | some zone => exact Computed.soundPure trivial

/- A zone that is asked for has whole pages and room for everything that was counted. Only
the product of the least pages can have left size_t, and not where eight pages fit in it. -/
theorem zoneSizeExact {conf conf' : MainConf abi.bits} {oldCycle : Option (List (List (ShmZone abi.bits)))}
    {size : abi.SizeT} (sharedMemoryAdd : abi.SizeT → Option ζ) (short : ∀ p ∈ conf.paths, ShortName host p)
    (asked : (zoneRequest host conf oldCycle).outcome = .ok (conf',some size)) :
    host.pagesize.toNat ∣ size.toNat ∧
    zoneNeeds host conf.initialized.queueSize.toNat conf.paths ≤ size.toNat ∧
    (∀ o ∈ (initMainConf sharedMemoryAdd host conf oldCycle).operations, o.Exact ∨ o = leastPages host) ∧
    (8 * host.pagesize.toNat < 2 ^ abi.bits →
      (∀ o ∈ (initMainConf sharedMemoryAdd host conf oldCycle).operations, o.Exact) ∧
      8 * host.pagesize.toNat ≤ size.toNat) := by
  have sound : Computed.Sound (fun o => o = leastPages host) (initMainConf sharedMemoryAdd host conf oldCycle) (fun _ => True) :=
    initMainConfSound host short oldCycle sharedMemoryAdd rfl
  have requested : Computed.Sound (fun o => o = leastPages host) (zoneRequest host conf oldCycle) (ZoneFits host conf) :=
    zoneRequestSound host short oldCycle rfl
  obtain ⟨divides,needs,least⟩ := requested.reached _ asked size rfl
  refine ⟨divides,needs,sound.exact,?_⟩
  intro fits
  have product := leastPagesExact host fits
  refine ⟨?_,product.2 ▸ least⟩
  intro o member
  rcases sound.exact o member with exact_ | same
  · exact exact_
  · exact same ▸ product.1

end Sizing

abbrev lp64 : Abi := ⟨8,8,Or.inr rfl,Or.inr rfl⟩

def pages4096 : Host lp64.bits := ⟨4096,64,12,by decide⟩

def twoPaths : MainConf lp64.bits :=
  ⟨some true,BitVec.allOnes 64,BitVec.allOnes 64,BitVec.allOnes 64,none,0,0,[⟨true,true,15⟩,⟨false,false,20⟩]⟩

theorem zoneSizeDefault :
    (zoneRequest pages4096 twoPaths none).outcome = .ok (twoPaths.initialized,some 2895872) ∧
    zoneNeeds pages4096 1024 twoPaths.paths ≤ 2895872 ∧
    ∀ o ∈ (initMainConf some pages4096 twoPaths none).operations, o.Exact := by
  have asked : (zoneRequest pages4096 twoPaths none).outcome = .ok (twoPaths.initialized,some 2895872) := by
    decide +kernel
  have short : ∀ p ∈ twoPaths.paths, ShortName pages4096 p := by
    simp only [ShortName]
    decide +kernel
  have sized := zoneSizeExact pages4096 some short asked
  exact ⟨asked,sized.2.1,(sized.2.2.2 (by decide)).1⟩

def pagesHuge : Host lp64.bits := ⟨0x2000000000000000,64,61,by decide⟩

def oneTask : MainConf lp64.bits := ⟨some true,1,10,10,none,0,0,[]⟩

theorem zoneSizeOnePage :
    (zoneRequest pagesHuge oneTask none).outcome = .ok (oneTask.initialized,some 0x2000000000000000) ∧
    ¬ 8 * pagesHuge.pagesize.toNat ≤ (0x2000000000000000 : BitVec 64).toNat ∧
    ¬ ∀ o ∈ (initMainConf some pagesHuge oneTask none).operations, o.Exact := by
  decide +kernel

end CachePurge
