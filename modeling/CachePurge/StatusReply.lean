import CachePurge.General.Buffers
import CachePurge.GenerationView
import CachePurge.QueueStatus
import CachePurge.Response
import Mathlib.Algebra.Order.Field.Basic
import Mathlib.Algebra.Order.Ring.Unbundled.Rat
import Mathlib.Data.Nat.Digits.Lemmas
import Mathlib.Data.Rat.Floor

/-! The reply to a status request: ngx_http_cache_purge_queue_status_handler. It is
formatted in a buffer on the stack, and the list of the namespaces stops where the widest
entry and the closing text might not fit. -/
namespace CachePurge
open General

def statusBodyMax : Nat := 8192
def statusNsMax : Nat := 160
def statusNsTail : Nat := 48

/- The C type double, of which the reply prints one ratio; unit holds from 0 to 1. -/
structure Doubles where
  Value : Type
  ofUint : UInt64 → Value
  add : Value → Value → Value
  div : Value → Value → Value
  zero : Value
  print6 : Value → Bytes
  unit : Value → Prop

/- What IEEE arithmetic and %.6f of the core's formatter give. -/
structure Doubles.Sound (d : Doubles) : Prop where
  zero : d.unit d.zero
  share : ∀ a b, a ≠ 0 ∨ b ≠ 0 → d.unit (d.div (d.ofUint a) (d.add (d.ofUint a) (d.ofUint b)))
  width : ∀ x, d.unit x → (d.print6 x).length = 8

def uint (n : Nat) : Bytes := decimal (n % 2^64)

def msec (n : UInt64) : Bytes := if n = 0xFFFFFFFFFFFFFFFF then text "-1" else decimal n.toNat

def hitRatio (d : Doubles) (hits misses : UInt64) : d.Value :=
  if hits ≠ 0 ∨ misses ≠ 0 then d.div (d.ofUint hits) (d.add (d.ofUint hits) (d.ofUint misses)) else d.zero

def statusQueue (stat : QueueStat) : Bytes :=
  text "\x7b\"code\":\"status\",\"queue\":\x7b\"size\":" ++ uint stat.size ++ text ",\"running\":" ++
    uint stat.running ++ text ",\"max_size\":" ++ uint stat.maxSize ++ text ",\"wait_time\":" ++ msec stat.waitTime ++
    text ",\"full\":" ++ trueOrFalse stat.full ++ text "\x7d,"

def statusCache (cache : CacheStat) : Bytes :=
  text "\"cache\":\x7b\"pending\":\x7b\"total\":" ++ uint cache.pending.toNat ++ text ",\"full\":" ++
    uint cache.pendingFull.toNat ++ text "\x7d,\"active\":" ++ uint cache.active.toNat ++
    text ",\"requests\":\x7b\"overflow\":" ++ uint cache.overflow.toNat ++ text ",\"deduplicated\":" ++
    uint cache.deduplicated.toNat ++ text ",\"waiting\":" ++ uint cache.waiting.toNat ++
    text "\x7d,\"files\":\x7b\"deleted\":" ++ uint cache.deleted.toNat ++ text ",\"errors\":" ++
    uint cache.errors.toNat ++ text ",\"bytes\":" ++ uint cache.bytes.toNat

def statusCleanup (d : Doubles) (cache : CacheStat) : Bytes :=
  text "\x7d,\"cleanup\":\x7b\"scan_errors\":" ++ uint cache.scanErrors.toNat ++ text ",\"retries\":" ++
    uint cache.retries.toNat ++ text ",\"exhausted\":" ++ uint cache.exhausted.toNat ++
    text "\x7d,\"logical\":\x7b\"invalidations\":" ++ uint cache.invalidated.toNat ++
    text "\x7d,\"responses\":\x7b\"hit\":" ++ uint cache.hits.toNat ++ text ",\"miss\":" ++ uint cache.misses.toNat ++
    text ",\"hit_ratio\":" ++ d.print6 (hitRatio d cache.hits cache.misses) ++ text "\x7d\x7d"

def statusHead (d : Doubles) (stat : QueueStat) : Bytes :=
  statusQueue stat ++ statusCache stat.cache ++ statusCleanup d stat.cache

def statusEntry (names : Nat → Name) (views : Nat → GenerationView) (first : Bool) (n : Nat) : Bytes :=
  (if first then [] else text ",") ++ text "\x7b\"name\":\"" ++ (names n).bytes ++ text "\",\"epoch\":\"" ++
    (views n).epoch.take 10 ++ text "\",\"baseline\":\"" ++ hexDigits 16 (views n).baseline.toNat ++
    text "\",\"serial\":\"" ++ hexDigits 16 (views n).serial.toNat ++ text "\",\"rules\":" ++
    trueOrFalse (views n).rules ++ text "\x7d"

section body
variable (d : Doubles) (names : Nat → Name) (views : Nat → GenerationView)

def statusEntries : Bool → List Nat → Bytes → Bytes × Bool
  | _, [], p => (p,true)
  | first, n :: rest, p =>
    if statusBodyMax - p.length < statusNsMax + statusNsTail then (p,false)
    else statusEntries false rest (put statusBodyMax p (statusEntry names views first n))

def statusBody (namespaces : List Nat) (stat : QueueStat) : Option Bytes :=
  let p := put statusBodyMax [] (statusHead d stat)
  if p.length = statusBodyMax then none
  else
    let p := put statusBodyMax p (text ",\"namespaces\":[")
    let entries := statusEntries names views true namespaces p
    let p := put statusBodyMax entries.1 (text "],\"namespaces_complete\":" ++ trueOrFalse entries.2 ++ text "\x7d")
    if p.length = statusBodyMax then none else some p

end body

inductive Method where
  | get | head | other
  deriving DecidableEq, Repr

structure StatusRequest where
  method : Method
  discarded : Bool
  headerOnly : Bool
  buffer : Bool
  headers : Bool
  deriving DecidableEq, Repr

inductive StatusReply where
  | methodNotAllowed | discard | internalError
  | sent (length : Nat) (body : Option Bytes)
  deriving DecidableEq, Repr

def QueueStat.zeroed : QueueStat := ⟨0,0,0,0,false,⟨0,0,0,0,0,0,0,0,0,0,0,0,0,0,0⟩⟩

def statusHandler (d : Doubles) (names : Nat → Name) (views : Nat → GenerationView) (namespaces : List Nat)
    (r : StatusRequest) (queue : Option Queue) (path : Option Nat) (now : UInt64) : StatusReply :=
  if r.method = .other then .methodNotAllowed
  else if !r.discarded then .discard
  else
    let snap := (queue.map (queueStatusSnapshot now path)).getD .zeroed
    match statusBody d names views namespaces snap with
    | none => .internalError
    | some body =>
      let full := !r.headerOnly && r.method ≠ .head
      if full && !r.buffer then .internalError
      else if !r.headers then .internalError
      else .sent body.length (if full then some body else none)

section widths

theorem decimalShort {n k : Nat} (positive : 0 < k) (small : n < 10^k) : (decimal n).length ≤ k := by
  rw [decimal]
  split
  · exact positive
  · rw [List.length_map,List.length_reverse]
    exact (Nat.digits_length_le_iff (by decide) n).mpr small

theorem uintShort (n : Nat) : (uint n).length ≤ 20 :=
  decimalShort (by decide) (Nat.lt_trans (Nat.mod_lt n (by decide)) (by decide))

theorem msecShort (n : UInt64) : (msec n).length ≤ 20 := by
  rw [msec]
  split
  · decide
  · exact decimalShort (by decide) (Nat.lt_trans n.toNat_lt (by decide))

theorem flagShort (b : Bool) : (trueOrFalse b).length ≤ 5 := by
  cases b <;> decide

theorem ratioWidth {d : Doubles} (sound : d.Sound) (hits misses : UInt64) :
    (d.print6 (hitRatio d hits misses)).length = 8 := by
  apply sound.width
  rw [hitRatio]
  split
  · exact sound.share hits misses ‹_›
  · exact sound.zero

theorem headShort {d : Doubles} (sound : d.Sound) (stat : QueueStat) : (statusHead d stat).length ≤ 900 := by
  have queue : (statusQueue stat).length ≤ 200 := by
    have size := uintShort stat.size
    have running := uintShort stat.running
    have maxSize := uintShort stat.maxSize
    have wait := msecShort stat.waitTime
    have full := flagShort stat.full
    simp only [statusQueue,List.length_append,text,List.length_map]
    simp only [String.reduceToList,List.length_cons,List.length_nil]
    omega
  have cache : (statusCache stat.cache).length ≤ 320 := by
    have short := fun n : UInt64 => uintShort n.toNat
    have pending := short stat.cache.pending
    have pendingFull := short stat.cache.pendingFull
    have active := short stat.cache.active
    have overflow := short stat.cache.overflow
    have deduplicated := short stat.cache.deduplicated
    have waiting := short stat.cache.waiting
    have deleted := short stat.cache.deleted
    have errors := short stat.cache.errors
    have bytes := short stat.cache.bytes
    simp only [statusCache,List.length_append,text,List.length_map]
    simp only [String.reduceToList,List.length_cons,List.length_nil]
    omega
  have cleanup : (statusCleanup d stat.cache).length ≤ 300 := by
    have short := fun n : UInt64 => uintShort n.toNat
    have scanErrors := short stat.cache.scanErrors
    have retries := short stat.cache.retries
    have exhausted := short stat.cache.exhausted
    have invalidated := short stat.cache.invalidated
    have hits := short stat.cache.hits
    have misses := short stat.cache.misses
    have ratio := ratioWidth sound stat.cache.hits stat.cache.misses
    simp only [statusCleanup,List.length_append,text,List.length_map]
    simp only [String.reduceToList,List.length_cons,List.length_nil]
    omega
  rw [statusHead,List.length_append,List.length_append]
  omega

theorem entryShort (names : Nat → Name) (views : Nat → GenerationView) (first : Bool) (n : Nat) :
    (statusEntry names views first n).length ≤ 137 := by
  have name := (names n).short
  have rules := flagShort (views n).rules
  have comma : (if first then [] else text ",").length ≤ 1 := by cases first <;> decide
  simp only [statusEntry,List.length_append,List.length_take,hexDigitsLength]
  simp only [text,List.length_map,String.reduceToList,List.length_cons,List.length_nil] at comma ⊢
  omega

def statusClosing (complete : Bool) : Bytes :=
  text "],\"namespaces_complete\":" ++ trueOrFalse complete ++ text "\x7d"

theorem closingShort (complete : Bool) : (statusClosing complete).length ≤ 30 := by
  cases complete <;> decide

end widths

section listed
variable {d : Doubles} {names : Nat → Name} {views : Nat → GenerationView}

theorem statusEntriesFill (first : Bool) (namespaces : List Nat) (p : Bytes) :
    statusEntries names views first namespaces p =
      fill statusBodyMax (statusNsMax + statusNsTail) (statusEntry names views) first namespaces p := by
  induction namespaces generalizing first p with
  | nil => rfl
  | cons n rest ih => rw [statusEntries,fill,ih]

theorem statusBodyListed (sound : d.Sound) (namespaces : List Nat) (stat : QueueStat) :
    ∃ listed rest, namespaces = listed ++ rest ∧
      statusBody d names views namespaces stat = some (statusHead d stat ++ text ",\"namespaces\":[" ++
        listing (statusEntry names views) true listed ++ statusClosing (rest = [])) ∧
      (statusHead d stat ++ text ",\"namespaces\":[" ++ listing (statusEntry names views) true listed ++
        statusClosing (rest = [])).length < statusBodyMax := by
  have head := headShort sound stat
  have opening : (text ",\"namespaces\":[").length = 15 := by decide
  have widest (first : Bool) (n : Nat) : (statusEntry names views first n).length + 48 ≤ 208 := by
    have short := entryShort names views first n
    omega
  have room : (statusHead d stat ++ text ",\"namespaces\":[").length + 48 ≤ statusBodyMax := by
    rw [List.length_append,opening,statusBodyMax]
    omega
  obtain ⟨listed,rest,split_,filled,fits⟩ := fillWhole widest true namespaces room
  have closing := closingShort (rest = [])
  have ends : (statusHead d stat ++ text ",\"namespaces\":[" ++ listing (statusEntry names views) true listed ++
      statusClosing (rest = [])).length < statusBodyMax := by
    rw [List.length_append]
    omega
  have first : put statusBodyMax [] (statusHead d stat) = statusHead d stat := by
    rw [putWhole (by rw [List.length_nil,statusBodyMax]; omega),List.nil_append]
  have second : put statusBodyMax (statusHead d stat) (text ",\"namespaces\":[") =
      statusHead d stat ++ text ",\"namespaces\":[" := putWhole (by rw [opening,statusBodyMax]; omega)
  have last := @putWhole UInt8 statusBodyMax (statusHead d stat ++ text ",\"namespaces\":[" ++
    listing (statusEntry names views) true listed) (statusClosing (rest = [])) (by omega)
  refine ⟨listed,rest,split_,?_,ends⟩
  unfold statusBody
  dsimp only
  rw [first,if_neg (by rw [statusBodyMax]; omega),second,statusEntriesFill,statusNsMax,statusNsTail,filled]
  change (if (put statusBodyMax _ (statusClosing _)).length = statusBodyMax then none
    else some (put statusBodyMax _ (statusClosing _))) = _
  rw [last,if_neg (Nat.ne_of_lt ends)]

end listed

/- The reply fits in its buffer, whatever the counters and the namespaces; its list is the
front of the configured one, and says so where that is not all. Nothing but memory or the
request keeps it from being sent. -/
theorem statusReplyBounded {d : Doubles} (sound : d.Sound) (names : Nat → Name) (views : Nat → GenerationView)
    (namespaces : List Nat) :
    (∀ stat : QueueStat, ∃ listed rest complete, namespaces = listed ++ rest ∧ (complete = true ↔ listed = namespaces) ∧
      let body := statusHead d stat ++ text ",\"namespaces\":[" ++ listing (statusEntry names views) true listed ++
        (text "],\"namespaces_complete\":" ++ trueOrFalse complete ++ text "\x7d")
      statusBody d names views namespaces stat = some body ∧ body.length < statusBodyMax) ∧
    ∀ (r : StatusRequest) (queue : Option Queue) (path : Option Nat) (now : UInt64), r.method ≠ .other →
      r.discarded = true → r.buffer = true → r.headers = true →
      ∃ body, body.length < statusBodyMax ∧ statusHandler d names views namespaces r queue path now =
        .sent body.length (if r.headerOnly = true ∨ r.method = .head then none else some body) := by
  refine ⟨fun stat => ?_,fun r queue path now method discarded buffer headers => ?_⟩
  · obtain ⟨listed,rest,split_,written,ends⟩ := @statusBodyListed d names views sound namespaces stat
    refine ⟨listed,rest,decide (rest = []),split_,?_,written,ends⟩
    rw [decide_eq_true_iff,split_]
    constructor
    · rintro rfl
      rw [List.append_nil]
    · intro all
      exact List.self_eq_append_right.mp all
  · obtain ⟨listed,rest,_,written,ends⟩ :=
      @statusBodyListed d names views sound namespaces ((queue.map (queueStatusSnapshot now path)).getD .zeroed)
    refine ⟨_,ends,?_⟩
    unfold statusHandler
    dsimp only
    rw [if_neg method,discarded,written,buffer,headers]
    by_cases head : r.method = .head
    · simp [head]
    · cases r.headerOnly <;> simp [head]

def pointed (n : Nat) : Bytes :=
  decimal (n / 1000000) ++ text "." ++ (List.range 6).reverse.map fun i => 48 + (n / 10^i % 10).toUInt8

theorem pointedWidth {n : Nat} (small : n ≤ 1000000) : (pointed n).length = 8 := by
  have digit := @decimalShort (n / 1000000) 1 (by decide) (by omega)
  have one : 0 < (decimal (n / 1000000)).length := by
    rw [decimal]
    split
    · decide
    · rename_i some_
      rw [List.length_map,List.length_reverse]
      exact List.length_pos_iff.mpr (Nat.digits_ne_nil_iff_ne_zero.mpr some_)
  have point : (text ".").length = 1 := by decide
  simp only [pointed,List.length_append,List.length_map,List.length_reverse,List.length_range,point]
  omega

def millionths (x : ℚ) : Nat := ⌊x * 1000000 + 1 / 2⌋.toNat

theorem millionthsBound {x : ℚ} (unit : x ≤ 1) : millionths x ≤ 1000000 := by
  have scaled := mul_le_mul_of_nonneg_right unit (by norm_num : (0 : ℚ) ≤ 1000000)
  have high : x * 1000000 + 1 / 2 < ((1000001 : ℤ) : ℚ) := by
    push_cast
    linarith
  have floor := Int.floor_lt.mpr high
  rw [millionths]
  omega

def fractions : Doubles where
  Value := ℚ
  ofUint n := (n.toNat : ℚ)
  add x y := (x + y : ℚ)
  div x y := (x / y : ℚ)
  zero := (0 : ℚ)
  print6 x := pointed (millionths x)
  unit (x : ℚ) := 0 ≤ x ∧ x ≤ 1

theorem fractionsSound : fractions.Sound where
  zero := by
    constructor
    · exact le_refl (0 : ℚ)
    · exact zero_le_one' ℚ
  share a b _ := by
    have left : (0 : ℚ) ≤ (a.toNat : ℚ) := Nat.cast_nonneg _
    have right : (0 : ℚ) ≤ (b.toNat : ℚ) := Nat.cast_nonneg _
    exact ⟨div_nonneg left (add_nonneg left right),
      div_le_one_of_le₀ (le_add_of_nonneg_right right) (add_nonneg left right)⟩
  width _ unit := pointedWidth (millionthsBound unit.2)

theorem statusReplyHundred : (∀ stat : QueueStat, ∃ listed rest complete, List.range 100 = listed ++ rest ∧
      (complete = true ↔ listed = List.range 100) ∧
      let body := statusHead fractions stat ++ text ",\"namespaces\":[" ++
        listing (statusEntry (fun _ => siteName) fun _ => generationView (generationInit siteEpoch)) true listed ++
        (text "],\"namespaces_complete\":" ++ trueOrFalse complete ++ text "\x7d")
      statusBody fractions (fun _ => siteName) (fun _ => generationView (generationInit siteEpoch)) (List.range 100)
        stat = some body ∧ body.length < statusBodyMax) ∧
    ∃ body, body.length < statusBodyMax ∧ statusHandler fractions (fun _ => siteName)
      (fun _ => generationView (generationInit siteEpoch)) (List.range 100) ⟨.get,true,false,true,true⟩ none none 0 =
        .sent body.length (some body) := by
  have bounded := statusReplyBounded fractionsSound (fun _ => siteName)
    (fun _ => generationView (generationInit siteEpoch)) (List.range 100)
  refine ⟨bounded.1,?_⟩
  exact bounded.2 ⟨.get,true,false,true,true⟩ none none 0 (by decide) rfl rfl rfl

end CachePurge
