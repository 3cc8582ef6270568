import CachePurge.JsonReplies

/-! The text of the status reply, read as JSON: in every state of the queue and of the zones
it is one object with the counters of the snapshot and one object for each namespace listed. -/
namespace CachePurge
open General
open General.Json (commas member)

/- What %.6f prints of a number from 0 to 1. -/
structure Doubles.Points (d : Doubles) : Prop where
  point : ∀ x, d.unit x → ∃ c digits, d.print6 x = c :: 46 :: digits ∧ Json.digit c = true ∧ digits ≠ [] ∧
    ∀ e ∈ digits, Json.digit e = true

section parts

def uintPart (name : Bytes) (n : Nat) : JsonPart := numberPart name (uint n)

def queueParts (stat : QueueStat) : List JsonPart :=
  [uintPart (text "size") stat.size,uintPart (text "running") stat.running,uintPart (text "max_size") stat.maxSize,
    numberPart (text "wait_time") (msec stat.waitTime),flagPart (text "full") stat.full]

def cacheParts (d : Doubles) (cache : CacheStat) : List JsonPart :=
  [nestedPart (text "pending") [uintPart (text "total") cache.pending.toNat,
      uintPart (text "full") cache.pendingFull.toNat],
    uintPart (text "active") cache.active.toNat,
    nestedPart (text "requests") [uintPart (text "overflow") cache.overflow.toNat,
      uintPart (text "deduplicated") cache.deduplicated.toNat,uintPart (text "waiting") cache.waiting.toNat],
    nestedPart (text "files") [uintPart (text "deleted") cache.deleted.toNat,uintPart (text "errors") cache.errors.toNat,
      uintPart (text "bytes") cache.bytes.toNat],
    nestedPart (text "cleanup") [uintPart (text "scan_errors") cache.scanErrors.toNat,
      uintPart (text "retries") cache.retries.toNat,uintPart (text "exhausted") cache.exhausted.toNat],
    nestedPart (text "logical") [uintPart (text "invalidations") cache.invalidated.toNat],
    nestedPart (text "responses") [uintPart (text "hit") cache.hits.toNat,uintPart (text "miss") cache.misses.toNat,
      numberPart (text "hit_ratio") (d.print6 (hitRatio d cache.hits cache.misses))]]

def entryParts (name : Name) (view : GenerationView) : List JsonPart :=
  [plainPart (text "name") name.bytes,plainPart (text "epoch") (view.epoch.take 10),
    plainPart (text "baseline") (hexDigits 16 view.baseline.toNat),plainPart (text "serial") (hexDigits 16 view.serial.toNat),
    flagPart (text "rules") view.rules]

def statusParts (d : Doubles) (stat : QueueStat) (entries : List (List JsonPart)) (complete : Bool) : List JsonPart :=
  [plainPart (text "code") (text "status"),nestedPart (text "queue") (queueParts stat),
    nestedPart (text "cache") (cacheParts d stat.cache),listPart (text "namespaces") entries,
    flagPart (text "namespaces_complete") complete]

theorem queueText (stat : QueueStat) :
    statusQueue stat = text "\x7b\"code\":\"status\",\"queue\":" ++ objectText (queueParts stat) ++ text "," := by
  simp only [statusQueue,queueParts,objectText,uintPart,numberPart,flagPart,List.map_cons,List.map_nil,commas,member]
  repeat rw [textOf]
  simp only [List.append_assoc,List.cons_append,List.nil_append,List.map_cons,List.map_nil]
  rfl

set_option maxRecDepth 2000 in
theorem cacheText (d : Doubles) (cache : CacheStat) :
    statusCache cache ++ statusCleanup d cache = text "\"cache\":" ++ objectText (cacheParts d cache) := by
  simp only [statusCache,statusCleanup,cacheParts,objectText,uintPart,nestedPart,numberPart,List.map_cons,List.map_nil,
    commas,member]
  repeat rw [textOf]
  simp only [List.append_assoc,List.cons_append,List.nil_append,List.map_cons,List.map_nil]
  rfl

theorem statusText (d : Doubles) (stat : QueueStat) (entries : List (List JsonPart)) (complete : Bool) :
    statusHead d stat ++ text ",\"namespaces\":[" ++ commas (entries.map objectText) ++ statusClosing complete =
      objectText (statusParts d stat entries complete) := by
  rw [statusHead,List.append_assoc (statusQueue stat),queueText,cacheText]
  simp only [statusParts,statusClosing,nestedPart,listPart,plainPart,flagPart,jsonText]
  generalize objectText (queueParts stat) = queue,objectText (cacheParts d stat.cache) = cache
  simp only [objectText,List.map_cons,List.map_nil,commas,member]
  repeat rw [textOf]
  simp only [List.append_assoc,List.cons_append,List.nil_append,List.map_cons,List.map_nil]
  rfl

end parts

section members

def queueMembers (stat : QueueStat) : List (Bytes × Json) :=
  [(text "size",.number (uint stat.size)),(text "running",.number (uint stat.running)),
    (text "max_size",.number (uint stat.maxSize)),(text "wait_time",.number (msec stat.waitTime)),
    (text "full",.bool stat.full)]

def cacheMembers (d : Doubles) (cache : CacheStat) : List (Bytes × Json) :=
  let count name (n : UInt64) := (name,Json.number (uint n.toNat))
  [(text "pending",.object [count (text "total") cache.pending,count (text "full") cache.pendingFull]),
    count (text "active") cache.active,
    (text "requests",.object [count (text "overflow") cache.overflow,count (text "deduplicated") cache.deduplicated,
      count (text "waiting") cache.waiting]),
    (text "files",.object [count (text "deleted") cache.deleted,count (text "errors") cache.errors,
      count (text "bytes") cache.bytes]),
    (text "cleanup",.object [count (text "scan_errors") cache.scanErrors,count (text "retries") cache.retries,
      count (text "exhausted") cache.exhausted]),
    (text "logical",.object [count (text "invalidations") cache.invalidated]),
    (text "responses",.object [count (text "hit") cache.hits,count (text "miss") cache.misses,
      (text "hit_ratio",.number (d.print6 (hitRatio d cache.hits cache.misses)))])]

def entryMembers (name : Name) (zone : Zone) : List (Bytes × Json) :=
  [(text "name",.string name.bytes),(text "epoch",.string zone.shared.epoch.bytes),
    (text "baseline",.string (hexDigits 16 zone.shared.baseline.toNat)),
    (text "serial",.string (hexDigits 16 zone.shared.serial.toNat)),(text "rules",.bool (generationView zone).rules)]

def statusMembers (d : Doubles) (stat : QueueStat) (names : Nat → Name) (zones : Nat → Zone) (listed : List Nat)
    (complete : Bool) : List (Bytes × Json) :=
  [(text "code",.string (text "status")),(text "queue",.object (queueMembers stat)),
    (text "cache",.object (cacheMembers d stat.cache)),
    (text "namespaces",.array (listed.map fun n => .object (entryMembers (names n) (zones n)))),
    (text "namespaces_complete",.bool complete)]

variable (d : Doubles) (names : Nat → Name) (zones : Nat → Zone)

def zoneParts (n : Nat) : List JsonPart := entryParts (names n) (generationView (zones n))

theorem entryValue (n : Nat) : objectOf (zoneParts names zones n) = .object (entryMembers (names n) (zones n)) := by
  have epoch : (generationView (zones n)).epoch.take 10 = (zones n).shared.epoch.bytes := by
    rw [← (zones n).shared.epoch.length]
    exact List.take_length
  simp only [objectOf,zoneParts,entryParts,entryMembers,epoch,plainPart,flagPart,List.map_cons,List.map_nil]
  rfl

theorem statusValue (stat : QueueStat) (listed : List Nat) (complete : Bool) :
    objectOf (statusParts d stat (listed.map (zoneParts names zones)) complete) =
      .object (statusMembers d stat names zones listed complete) := by
  have rows : (listed.map (zoneParts names zones)).map objectOf =
      listed.map fun n => .object (entryMembers (names n) (zones n)) := by
    rw [List.map_map]
    exact List.map_congr_left fun n _ => entryValue names zones n
  unfold statusParts listPart
  rw [rows]
  rfl

theorem entriesText (listed : List Nat) : listing (statusEntry names fun n => generationView (zones n)) true listed =
    commas ((listed.map (zoneParts names zones)).map objectText) := by
  have first (n : Nat) : statusEntry names (fun n => generationView (zones n)) true n = objectText (zoneParts names zones n) := by
    simp only [statusEntry,if_true,objectText,zoneParts,entryParts,plainPart,flagPart,jsonText,List.map_cons,List.map_nil,
      commas,member]
    repeat rw [textOf]
    simp only [List.append_assoc,List.cons_append,List.nil_append,List.map_cons,List.map_nil]
    rfl
  have later (n : Nat) : statusEntry names (fun n => generationView (zones n)) false n =
      44 :: objectText (zoneParts names zones n) := by
    rw [← first]
    rfl
  have rest (l : List Nat) : listing (statusEntry names fun n => generationView (zones n)) false l =
      l.flatMap fun n => 44 :: objectText (zoneParts names zones n) := by
    induction l with
    | nil => rfl
    | cons n l ih => rw [listing,ih,later,List.flatMap_cons]
  cases listed with
  | nil => rfl
  | cons n listed =>
    rw [listing,first,rest,List.map_cons,List.map_cons,Json.commasCons,List.map_map,List.flatMap_map]
    rfl

end members

section sound
variable {d : Doubles}

theorem msecNumeral (n : UInt64) : Json.Numeral (msec n) := by
  rw [msec]
  split
  · have one : ∀ d ∈ [(49 : UInt8)], Json.digit d = true := fun d member => List.mem_singleton.mp member ▸ rfl
    rw [textOf]
    exact @Json.Numeral.mk [45] [49] [] (.inr rfl) (.inr ⟨49,[],rfl,by decide,one⟩) (.inl rfl)
  · exact decimalNumeral _

theorem ratioNumeral (sound : d.Sound) (points : d.Points) (hits misses : UInt64) :
    Json.Numeral (d.print6 (hitRatio d hits misses)) := by
  have unit : d.unit (hitRatio d hits misses) := by
    rw [hitRatio]
    split
    · exact sound.share hits misses ‹_›
    · exact sound.zero
  obtain ⟨c,digits,printed,first,some_,all⟩ := points.point _ unit
  have whole : [c] = [48] ∨ ∃ e more, [c] = e :: more ∧ e ≠ 48 ∧ ∀ f ∈ [c], Json.digit f = true := by
    by_cases zero : c = 48
    · exact .inl (by rw [zero])
    · exact .inr ⟨c,[],rfl,zero,fun f member => List.mem_singleton.mp member ▸ first⟩
  rw [printed]
  exact @Json.Numeral.mk [] _ _ (.inl rfl) whole (.inr ⟨digits,rfl,some_,all⟩)

theorem uintSound {name : Bytes} (name_ : Json.Plain name) (n : Nat) : (uintPart name n).Sound :=
  numberSound name_ (decimalNumeral _)

theorem queueSound (stat : QueueStat) : ∀ p ∈ queueParts stat, p.Sound := by
  simp only [queueParts,List.forall_mem_cons]
  refine ⟨uintSound ?_ _,uintSound ?_ _,uintSound ?_ _,numberSound ?_ (msecNumeral _),flagSound ?_ _,by simp⟩ <;>
    exact literalPlain _ rfl

theorem cacheSound (sound : d.Sound) (points : d.Points) (cache : CacheStat) : ∀ p ∈ cacheParts d cache, p.Sound := by
  have one {name : Bytes} {p : JsonPart} (name_ : Json.Plain name) (first : p.Sound) : (nestedPart name [p]).Sound :=
    nestedSound name_ (by simpa using first)
  have two {name : Bytes} {p q : JsonPart} (name_ : Json.Plain name) (first : p.Sound) (second : q.Sound) :
      (nestedPart name [p,q]).Sound := nestedSound name_ (by simpa using ⟨first,second⟩)
  have three {name : Bytes} {p q r : JsonPart} (name_ : Json.Plain name) (first : p.Sound) (second : q.Sound) (third : r.Sound) :
      (nestedPart name [p,q,r]).Sound := nestedSound name_ (by simpa using ⟨first,second,third⟩)
  simp only [cacheParts,List.forall_mem_cons]
  refine ⟨two ?_ (uintSound ?_ _) (uintSound ?_ _),uintSound ?_ _,
    three ?_ (uintSound ?_ _) (uintSound ?_ _) (uintSound ?_ _),three ?_ (uintSound ?_ _) (uintSound ?_ _) (uintSound ?_ _),
    three ?_ (uintSound ?_ _) (uintSound ?_ _) (uintSound ?_ _),one ?_ (uintSound ?_ _),
    three ?_ (uintSound ?_ _) (uintSound ?_ _) (numberSound ?_ (ratioNumeral sound points _ _)),by simp⟩ <;>
    exact literalPlain _ rfl

theorem digitWord {c : UInt8} (digit : isDigit c = true) : wordByte c = true := by
  simp only [isDigit,wordByte,Bool.and_eq_true,decide_eq_true_eq,bne_iff_ne,UInt8.le_iff_toNat_le,UInt8.lt_iff_toNat_lt,
    ne_eq,← UInt8.toNat_inj,UInt8.reduceToNat] at digit ⊢
  omega

theorem nameWord {c : UInt8} (legal : nameByte c = true) : wordByte c = true := by
  simp only [nameByte,isDigit,wordByte,Bool.or_eq_true,Bool.and_eq_true,decide_eq_true_eq,beq_iff_eq,bne_iff_ne,
    UInt8.le_iff_toNat_le,UInt8.lt_iff_toNat_lt,ne_eq,← UInt8.toNat_inj,UInt8.reduceToNat] at legal ⊢
  omega

theorem namePlain (name : Name) : Json.Plain name.bytes :=
  wordsPlain (List.all_eq_true.mpr fun c member => nameWord (List.all_eq_true.mp name.legal c member))

theorem epochPlain (epoch : Epoch) : Json.Plain epoch.bytes :=
  wordsPlain (List.all_eq_true.mpr fun c member => digitWord (List.all_eq_true.mp epoch.digits c member))

theorem hexDigitsPlain (width v : Nat) : Json.Plain (hexDigits width v) := by
  have digit (d : Nat) (small : d < 16) : wordByte (hexChar d) = true := by
    interval_cases d <;> rfl
  refine wordsPlain ?_
  induction width generalizing v with
  | zero => rfl
  | succ width ih =>
    rw [hexDigits,List.all_append,ih,List.all_cons,digit (v % 16) (Nat.mod_lt v (by decide))]
    rfl

theorem zoneSound (names : Nat → Name) (zones : Nat → Zone) (n : Nat) : ∀ p ∈ zoneParts names zones n, p.Sound := by
  have epoch : (generationView (zones n)).epoch.take 10 = (zones n).shared.epoch.bytes := by
    rw [← (zones n).shared.epoch.length]
    exact List.take_length
  simp only [zoneParts,entryParts,epoch,List.forall_mem_cons]
  refine ⟨plainSound ?_ (namePlain _),plainSound ?_ (epochPlain _),plainSound ?_ (hexDigitsPlain _ _),
    plainSound ?_ (hexDigitsPlain _ _),flagSound ?_ _,by simp⟩ <;> exact literalPlain _ rfl

theorem statusSound (sound : d.Sound) (points : d.Points) (stat : QueueStat) (names : Nat → Name) (zones : Nat → Zone)
    (listed : List Nat) (complete : Bool) :
    ∀ p ∈ statusParts d stat (listed.map (zoneParts names zones)) complete, p.Sound := by
  simp only [statusParts,List.forall_mem_cons]
  refine ⟨plainSound (literalPlain _ rfl) (literalPlain _ rfl),nestedSound (literalPlain _ rfl) (queueSound stat),
    nestedSound (literalPlain _ rfl) (cacheSound sound points stat.cache),listSound (literalPlain _ rfl) fun parts member => ?_,
    flagSound (literalPlain _ rfl) _,by simp⟩
  obtain ⟨n,_,rfl⟩ := List.mem_map.mp member
  exact zoneSound names zones n

end sound

theorem statusSent {d : Doubles} {names : Nat → Name} {views : Nat → GenerationView} {namespaces : List Nat}
    {r : StatusRequest} {queue : Option Queue} {path : Option Nat} {now : UInt64} {length : Nat} {body : Bytes}
    (sent : statusHandler d names views namespaces r queue path now = .sent length (some body)) :
    length = body.length ∧
      statusBody d names views namespaces ((queue.map (queueStatusSnapshot now path)).getD .zeroed) = some body := by
  unfold statusHandler at sent
  dsimp only at sent
  generalize statusBody d names views namespaces ((queue.map (queueStatusSnapshot now path)).getD .zeroed) = written at sent ⊢
  split at sent
  · contradiction
  split at sent
  · contradiction
  cases written with
  | none => contradiction
  | some text =>
    dsimp only at sent
    split at sent
    · contradiction
    split at sent
    · contradiction
    obtain ⟨same,shown⟩ := StatusReply.sent.inj sent
    split at shown
    · cases Option.some.inj shown
      exact ⟨same.symm,rfl⟩
    · contradiction

/- A status reply reads as one object of exactly the counters of the snapshot, with the state
of the first namespaces, of all where it says so, whatever the queue and the zones are. -/
theorem statusReads {d : Doubles} (sound : d.Sound) (points : d.Points) (names : Nat → Name) (zones : Nat → Zone)
    (namespaces : List Nat) {r : StatusRequest} {queue : Option Queue} {path : Option Nat} {now : UInt64} {length : Nat}
    {body : Bytes} (sent : statusHandler d names (fun n => generationView (zones n)) namespaces r queue path now =
      .sent length (some body)) :
    length = body.length ∧ ∃ listed rest, namespaces = listed ++ rest ∧ Json.read body = some (.object
      (statusMembers d ((queue.map (queueStatusSnapshot now path)).getD .zeroed) names zones listed (rest = []))) := by
  obtain ⟨same,text⟩ := statusSent sent
  obtain ⟨listed,rest,split_,written,_⟩ := @statusBodyListed d names (fun n => generationView (zones n)) sound namespaces
    ((queue.map (queueStatusSnapshot now path)).getD .zeroed)
  rw [written,entriesText,statusText] at text
  refine ⟨same,listed,rest,split_,?_⟩
  rw [← Option.some.inj text,← statusValue]
  exact Json.readsWhole (readsParts (statusSound sound points _ names zones listed _))

theorem fractionsPoints : fractions.Points where
  point x unit := by
    have small : millionths x / 1000000 < 10 := by
      have bound := millionthsBound unit.2
      omega
    have first : ∃ c, decimal (millionths x / 1000000) = [c] ∧ Json.digit c = true := by
      generalize millionths x / 1000000 = n at small
      interval_cases n <;> exact ⟨_,rfl,rfl⟩
    obtain ⟨c,one,digit⟩ := first
    refine ⟨c,(List.range 6).reverse.map fun i => 48 + (millionths x / 10^i % 10).toUInt8,?_,digit,by simp,?_⟩
    · change pointed (millionths x) = _
      rw [pointed,one,textOf]
      rfl
    · intro e member
      obtain ⟨i,_,rfl⟩ := List.mem_map.mp member
      exact digitByte (Nat.mod_lt _ (by decide))

theorem statusReadsSite : ∃ length body, statusHandler fractions (fun _ => siteName)
      (fun _ => generationView (generationInit siteEpoch)) [0] ⟨.get,true,false,true,true⟩ none none 0 = .sent length (some body) ∧
    length = body.length ∧ ∃ listed rest, [0] = listed ++ rest ∧ Json.read body = some (.object
      (statusMembers fractions .zeroed (fun _ => siteName) (fun _ => generationInit siteEpoch) listed (rest = []))) := by
  obtain ⟨body,written⟩ : ∃ body, statusBody fractions (fun _ => siteName)
      (fun _ => generationView (generationInit siteEpoch)) [0] .zeroed = some body := by
    obtain ⟨_,_,_,written,_⟩ := @statusBodyListed fractions (fun _ => siteName)
      (fun _ => generationView (generationInit siteEpoch)) fractionsSound [0] .zeroed
    exact ⟨_,written⟩
  have sent : statusHandler fractions (fun _ => siteName) (fun _ => generationView (generationInit siteEpoch)) [0]
      ⟨.get,true,false,true,true⟩ none none 0 = .sent body.length (some body) := by
    unfold statusHandler
    simp only [Option.map_none,Option.getD_none,written,reduceCtorEq,if_false,Bool.not_true,Bool.false_eq_true]
    rfl
  exact ⟨_,_,sent,statusReads fractionsSound fractionsPoints _ _ _ sent⟩

end CachePurge
