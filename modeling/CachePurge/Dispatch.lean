import CachePurge.Cleanup
import CachePurge.KeyReader

/-! What ngx_http_cache_purge_dispatch does with a selector, and the limits on its
length in the stages behind it: admission, invalidation, the walk and the reader. -/
namespace CachePurge

structure DispatchConf where
  ns : Option Nat
  purgeAll : Bool
  refresh : Bool
  varyAware : Bool
  backgroundPurge : Bool
  deriving DecidableEq, Repr

inductive Dispatched where
  | invalidSelector | invalidated | accepted | deferred | closed | internalError | refresh
  | walk (target : Target)
  | entry (variants : Option Target)
  deriving DecidableEq, Repr

/- ngx_http_cache_purge_is_partial -/
def isPartial (key : Bytes) : Bool := key.getLast? == some star

def selectorTooLong (conf : DispatchConf) (key : Bytes) : Bool :=
  (conf.ns.isSome && logicalKeyMax < key.length) ||
    (conf.ns.isNone && !conf.purgeAll && ((isPartial key && keyMaxLen < key.length) ||
      (!isPartial key && conf.varyAware && keyMaxLen ≤ key.length)))

def DispatchConf.queues (conf : DispatchConf) (key : Bytes) : Bool :=
  conf.ns.isSome || (conf.backgroundPurge && (conf.purgeAll || isPartial key))

def enqueueReply (conf : DispatchConf) : Rc → Dispatched
  | .ok => if conf.ns.isSome then .invalidated else .accepted
  | .again => .deferred
  | .abort => .closed
  | .declined => .invalidSelector
  | _ => .internalError

/- The walk of ngx_http_cache_purge_all. -/
def allTarget : Target := ⟨none,[],false⟩

def dispatch (conf : DispatchConf) (key : Bytes) (rc : Rc) : Dispatched :=
  if selectorTooLong conf key then .invalidSelector
  else if conf.refresh then .refresh
  else if conf.queues key then enqueueReply conf rc
  else if conf.purgeAll then .walk allTarget
  else if isPartial key then .walk (purgePartial key)
  else .entry (if conf.varyAware then deleteVariants key else none)

def Target.passes (target : Target) : Prop := ∀ (conf : WalkConf) (path : Bytes),
  target.guarded conf path = (isProtectedPath conf path || !isCacheFile conf.platform path)

section lengths
variable {conf : DispatchConf} {p : Purge}

theorem shortPasses {target : Target} (short : target.key.length < keyMaxLen)
    (named : target.exact = true → target.key ≠ []) : target.passes := by
  intro conf path
  have some_ : (target.exact && target.key.isEmpty) = false := by
    cases exact_ : target.exact with
    | false => rfl
    | true => simpa using named exact_
  rw [Target.guarded,some_,Bool.or_false,decide_eq_false (Nat.not_le.mpr short),Bool.or_false]

structure Purge.Unconditional (p : Purge) (conf : DispatchConf) : Prop where
  ns : p.ns = conf.ns
  purgeAll : p.purgeAll = conf.purgeAll
  expected : p.expected = none

theorem acceptedFits (request : p.Unconditional conf) (fits : selectorTooLong conf p.key = false)
    (queued : conf.queues p.key = true) : p.tooLong = false := by
  rw [Purge.tooLong,request.ns,request.purgeAll]
  simp only [selectorTooLong,Bool.or_eq_false_iff] at fits
  obtain ⟨named,plain⟩ := fits
  simp only [named,Bool.or_false]
  cases ns : conf.ns with
  | some n => rfl
  | none =>
    simp only [ns,DispatchConf.queues,Option.isSome_none,Bool.false_or,Bool.and_eq_true] at queued
    cases all : conf.purgeAll with
    | true => rfl
    | false =>
      have starred : isPartial p.key = true := by simpa [all] using queued.2
      simpa [ns,all,starred] using plain

theorem acceptedQueues (request : p.Unconditional conf) (queued : conf.queues p.key = true) (unnamed : p.ns = none) :
    p.purgeAll = true ∨ p.key.getLast? = some star := by
  rw [request.ns] at unnamed
  simp only [DispatchConf.queues,unnamed,Option.isSome_none,Bool.false_or,Bool.and_eq_true,Bool.or_eq_true] at queued
  rw [request.purgeAll]
  exact queued.2.imp id fun starred => beq_iff_eq.mp starred

theorem indexFits (names : Nat → Name) (fits : p.tooLong = false) : (p.indexKey names).length ≤ keyMaxLen + 1 := by
  unfold Purge.indexKey
  cases named : p.ns with
  | some n =>
    have short := (names n).short
    simp only [List.length_cons,keyMaxLen]
    omega
  | none =>
    simp only [Purge.tooLong,named,Option.isNone_none,Bool.true_and,Option.isSome_none,Bool.false_and,Bool.or_false,
      decide_eq_false_iff_not,not_lt] at fits
    simp only [List.length_cons]
    have taken := List.length_take_le (if p.purgeAll then 0 else p.key.length) p.key
    omega

theorem invalidateFails {names : Nat → Name} {n : Nat} {o : Outcome} {z : Zone} (request : p.Unconditional conf)
    (short : p.key.length ≤ logicalKeyMax) :
    (generationInvalidate (names n) (p.invalidation o) z).1 ≠ .declined ∧
    ((generationInvalidate (names n) (p.invalidation o) z).1 = .error → z.shared.serial = 0xFFFFFFFFFFFFFFFF) := by
  have matches_ : expectedMatches (names n) (p.invalidation o) z.shared = true := by
    simp [expectedMatches,Purge.invalidation,request.expected]
  have fits : ¬ logicalKeyMax < (p.invalidation o).key.length := Nat.not_lt.mpr short
  unfold generationInvalidate
  rw [if_neg fits,matches_]
  split
  · exact ⟨by simp,by simp⟩
  · rw [if_neg (by simp)]
    split
    · rename_i spent
      exact ⟨by simp,fun _ => spent⟩
    · exact ⟨by simp,by simp⟩

theorem publishAccepted {names : Nat → Name} {o : Outcome} {zones : Nat → Zone} (request : p.Unconditional conf)
    (fits : p.tooLong = false) : (p.publish names o zones).1 ≠ .declined := by
  unfold Purge.publish
  cases named : p.ns with
  | none => simp
  | some n =>
    simp only [Purge.tooLong,named,Option.isNone_some,Bool.false_and,Option.isSome_some,Bool.true_and,Bool.false_or,
      decide_eq_false_iff_not,not_lt] at fits
    exact (invalidateFails request fits).1

theorem enqueueTakes (platform : Platform) (names : Nat → Name) (slot : Option Slot) (exiting : Bool) (o : Outcome) (q : Queue)
    (zones : Nat → Zone) (request : p.Unconditional conf) (fits : p.tooLong = false) :
    (enqueue platform names slot exiting p o q zones).1 ≠ .declined := by
  have ways := @enqueueCases platform names slot p o q zones exiting
  generalize enqueue platform names slot exiting p o q zones = out at ways ⊢
  cases ways with
  | refused other declined =>
    intro said
    rcases declined said with long | unpublished
    · exact Bool.noConfusion (fits.symm.trans long)
    · exact publishAccepted request fits unpublished
  | renewed found indexed published => simp
  | admitted found absent room fresh published => simp

theorem taskPasses {names : Nat → Name} {item : Item} (request : p.Unconditional conf) (fits : p.tooLong = false)
    (queued : conf.queues p.key = true) (same : item.key = p.indexKey names) (namespaces : List Nat) (poolFound : Bool)
    (t : TaskId) (root : Bytes) (w : Work) : (w.begin names namespaces poolFound t item root).target.passes := by
  have admitted : item.admitted := by
    have asked : (p.item names 0).admitted := itemAdmitted fits (acceptedQueues request queued)
    rw [Item.admitted,same]
    exact asked
  refine shortPasses (admittedShort admitted) fun exact_ => ?_
  contradiction

theorem walkPasses {rc : Rc} {target : Target} (fits : selectorTooLong conf p.key = false)
    (walks : dispatch conf p.key rc = .walk target ∨ dispatch conf p.key rc = .entry (some target)) : target.passes := by
  have replies (target : Target) : enqueueReply conf rc ≠ .walk target ∧ enqueueReply conf rc ≠ .entry (some target) := by
    cases rc with
    | ok => cases named : conf.ns.isSome <;> simp [enqueueReply,named]
    | _ => simp [enqueueReply]
  simp only [dispatch,fits,Bool.false_eq_true,if_false] at walks
  split at walks
  · simp at walks
  · split at walks
    · exact absurd walks (not_or.mpr (replies target))
    · rename_i _ unqueued
      simp only [DispatchConf.queues,Bool.not_eq_true,Bool.or_eq_false_iff] at unqueued
      simp only [selectorTooLong,Bool.or_eq_false_iff] at fits
      obtain ⟨_,plain⟩ := fits
      split at walks
      · simp only [Dispatched.walk.injEq,reduceCtorEq,or_false] at walks
        cases walks
        exact shortPasses (by decide) (by simp [allTarget])
      · rename_i selective
        have unnamed : conf.ns.isNone = true := by simpa using unqueued.1
        simp only [unnamed,Bool.not_eq_true _ ▸ selective,Bool.not_false,Bool.true_and,Bool.or_eq_false_iff] at plain
        split at walks
        · rename_i starred
          simp only [Dispatched.walk.injEq,reduceCtorEq,or_false] at walks
          cases walks
          have short : p.key.length ≤ keyMaxLen := by simpa [starred] using plain.1
          refine shortPasses ?_ (by simp [purgePartial])
          simp only [purgePartial,List.length_dropLast]
          unfold keyMaxLen at short ⊢
          omega
        · rename_i whole
          split at walks
          · rename_i vary
            have short : p.key.length < keyMaxLen := by simpa [vary,whole] using plain.2
            simp only [reduceCtorEq,Dispatched.entry.injEq,false_or,deleteVariants] at walks
            split at walks
            · contradiction
            · rename_i some_
              cases walks
              refine shortPasses short fun _ empty => some_ ?_
              rw [show p.key = [] from empty]
              rfl
          · simp at walks

end lengths

/- A selector is refused for its length before any work or not at all, and a key that
carries a logical key of a legal length is one that the reader takes. -/
theorem lengthsAgree (platform : Platform) (names : Nat → Name) (slot : Option Slot) (exiting : Bool) (o : Outcome) (q : Queue)
    (zones : Nat → Zone) (conf : DispatchConf) (p : Purge) (request : p.Unconditional conf) :
    let rc := (enqueue platform names slot exiting p o q zones).1
    (dispatch conf p.key rc = .invalidSelector ↔ selectorTooLong conf p.key = true) ∧
    (selectorTooLong conf p.key = false →
      (conf.queues p.key = true → rc ≠ .declined ∧ (p.indexKey names).length ≤ keyMaxLen + 1 ∧
        (∀ n z, p.ns = some n → (generationInvalidate (names n) (p.invalidation o) z).1 = .error →
          z.shared.serial = 0xFFFFFFFFFFFFFFFF) ∧
        ∀ item, item.key = p.indexKey names → ∀ namespaces poolFound t root (w : Work),
          (w.begin names namespaces poolFound t item root).target.passes) ∧
      ∀ target, dispatch conf p.key rc = .walk target ∨ dispatch conf p.key rc = .entry (some target) → target.passes) ∧
    ∀ name epoch generation logical, logical.length ≤ logicalKeyMax →
      (generationEncode name epoch generation logical).length ≤ entryKeyMax := by
  intro rc
  refine ⟨?_,fun fits => ⟨fun queued => ?_,fun target => walkPasses fits⟩,fun name epoch generation logical short => ?_⟩
  · refine ⟨fun answered => ?_,fun long => by rw [dispatch,if_pos long]⟩
    by_contra fits
    rw [Bool.not_eq_true] at fits
    simp only [dispatch,fits,Bool.false_eq_true,if_false] at answered
    split at answered
    · contradiction
    · split at answered
      · rename_i _ queued
        have taken := enqueueTakes platform names slot exiting o q zones request (acceptedFits request fits queued)
        change rc ≠ .declined at taken
        cases result : rc with
        | declined => exact taken result
        | ok =>
          rw [result,enqueueReply] at answered
          split at answered <;> contradiction
        | _ => rw [result] at answered; contradiction
      · split at answered
        · contradiction
        · split at answered <;> contradiction
  · have short := acceptedFits request fits queued
    refine ⟨enqueueTakes platform names slot exiting o q zones request short,indexFits names short,fun n z named => ?_,
      fun item same namespaces poolFound t root w => taskPasses request short queued same namespaces poolFound t root w⟩
    simp only [Purge.tooLong,named,Option.isNone_some,Bool.false_and,Option.isSome_some,Bool.true_and,Bool.false_or,
      decide_eq_false_iff_not,not_lt] at short
    exact (invalidateFails request short).2
  · have bound := name.short
    rw [encodeLength]
    unfold logicalKeyMax at short
    unfold entryKeyMax
    omega

theorem lengthsAgreeLongest :
    let p : Purge := ⟨true,[47,99],none,List.replicate 511 97 ++ [star],false,none,[],[],0⟩
    let conf : DispatchConf := ⟨none,false,false,true,true⟩
    selectorTooLong conf p.key = false ∧ (p.indexKey fun _ => siteName).length = keyMaxLen + 1 ∧
    (purgePartial p.key).passes := by
  intro p conf
  have fits : selectorTooLong conf p.key = false := by decide +kernel
  have request : p.Unconditional conf := ⟨rfl,rfl,rfl⟩
  refine ⟨fits,by decide +kernel,?_⟩
  have immediate : p.Unconditional {conf with backgroundPurge := false} := ⟨rfl,rfl,rfl⟩
  exact ((lengthsAgree posix (fun _ => siteName) none false ⟨true,true,none,[]⟩ (queueInit 4 [])
    (fun _ => generationInit siteEpoch) {conf with backgroundPurge := false} p immediate).2.1 fits).2 _ (.inl (by decide +kernel))

end CachePurge
