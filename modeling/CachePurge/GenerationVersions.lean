import CachePurge.General.Versions
import CachePurge.GenerationState

/-! What the tries mean. A namespace zone refines a version table over logical
keys: an accepted invalidation gives exactly the keys of its scope the new
serial and keeps the version of every other key. -/
namespace CachePurge
open General

def exactReading (state : Generation) (key : Bytes) : UInt64 :=
  SiblingTrie.reading RuleCell.generation 0 key state.exactRules

def prefixReading (state : Generation) (path : Bytes) : UInt64 :=
  SiblingTrie.reading RuleCell.generation 0 path state.prefixRules

theorem exactPass (key : Bytes) (t : Rules) (g : UInt64) (n : Nat) :
    (lookupPass false key t g).toNat ≤ n ↔
      g.toNat ≤ n ∧ (SiblingTrie.reading RuleCell.generation 0 key t).toNat ≤ n := by
  induction key generalizing t g with
  | nil => simp [lookupPass,SiblingTrie.reading]
  | cons c rest ih =>
    rw [SiblingTrie.readingCons]
    cases found : SiblingTrie.find c t with
    | none => simp [lookupPass,found]
    | some p =>
      obtain ⟨cell,child⟩ := p
      simp only [lookupPass,found,Bool.false_or,Bool.false_eq_true,if_false,ih]
      cases rest with
      | nil =>
        simp only [List.isEmpty_nil,Bool.true_and,decide_eq_true_eq,Option.map_some,
          Option.getD_some,if_true]
        simp only [SiblingTrie.reading,SiblingTrie.valueAtNil,Option.map_none,Option.getD_none]
        split <;> simp only [UInt64.lt_iff_toNat_lt,UInt64.toNat_zero] at * <;> omega
      | cons b tail => simp

theorem prefixPass (key : Bytes) (t : Rules) (g : UInt64) (n : Nat) :
    (lookupPass true key t g).toNat ≤ n ↔
      g.toNat ≤ n ∧ ∀ cell ∈ SiblingTrie.trail (lowered key) t, cell.generation.toNat ≤ n := by
  induction key generalizing t g with
  | nil => simp [lookupPass,lowered,SiblingTrie.trail]
  | cons c rest ih =>
    have head : lowered (c :: rest) = tolower c :: lowered rest := rfl
    cases found : SiblingTrie.find (tolower c) t with
    | none => simp [lookupPass,found,head,SiblingTrie.trail]
    | some p =>
      obtain ⟨cell,child⟩ := p
      simp only [lookupPass,found,Bool.true_or,Bool.true_and,decide_eq_true_eq,if_true,ih,head,
        SiblingTrie.trail,List.mem_cons,forall_eq_or_imp]
      rw [← and_assoc]
      refine and_congr_left fun _ => ?_
      split <;> simp only [UInt64.lt_iff_toNat_lt] at * <;> omega

theorem lookupBound (state : Generation) (key : Bytes) (n : Nat) :
    (generationLookup state key).toNat ≤ n ↔ state.baseline.toNat ≤ n ∧
      (exactReading state key).toNat ≤ n ∧
      ∀ path, path <+: lowered key → (prefixReading state path).toNat ≤ n := by
  rw [generationLookup,prefixPass,exactPass,and_assoc]
  refine and_congr_right fun _ => and_congr_right fun _ => ⟨fun h path begins => ?_,fun h cell member => ?_⟩
  · cases value : SiblingTrie.valueAt path state.prefixRules with
    | none => simp [prefixReading,SiblingTrie.reading,value]
    | some cell =>
      have passed := h cell (SiblingTrie.trailSource.mpr ⟨path,begins,value⟩)
      simpa [prefixReading,SiblingTrie.reading,value] using passed
  · obtain ⟨path,begins,value⟩ := SiblingTrie.trailSource.mp member
    simpa [prefixReading,SiblingTrie.reading,value] using h path begins

theorem lookupUnique {state : Generation} {key : Bytes} {value : UInt64}
    (bounds : ∀ n, (state.baseline.toNat ≤ n ∧ (exactReading state key).toNat ≤ n ∧
      ∀ path, path <+: lowered key → (prefixReading state path).toNat ≤ n) ↔ value.toNat ≤ n) :
    generationLookup state key = value := by
  apply UInt64.toNat_inj.mp
  exact eq_of_forall_ge_iff fun n => (lookupBound state key n).trans (bounds n)

structure Generation.Bounded (state : Generation) : Prop where
  baseline : state.baseline ≤ state.serial
  exact : ∀ key, exactReading state key ≤ state.serial
  ranged : ∀ path, prefixReading state path ≤ state.serial

theorem lookupBounded {state : Generation} (bounded : state.Bounded) (key : Bytes) :
    generationLookup state key ≤ state.serial := by
  rw [UInt64.le_iff_toNat_le,lookupBound]
  exact ⟨bounded.baseline,bounded.exact key,fun path _ => bounded.ranged path⟩

theorem initBounded (epoch : Epoch) : (generationInit epoch).shared.Bounded :=
  ⟨by simp [generationInit],by simp [exactReading,generationInit],by simp [prefixReading,generationInit]⟩

def versions (state : Generation) (bounded : state.Bounded) : VersionTable Bytes Nat where
  serial := state.serial.toNat
  live key := (generationLookup state key).toNat
  bounded key := lookupBounded bounded key

/- The keys an invalidation takes effect on. A prefix is kept as the trie keeps
it, in lower case. -/
inductive Scope where
  | everything
  | exact (key : Bytes)
  | under (path : Bytes)
  deriving DecidableEq, Repr

def Scope.covers : Scope → Bytes → Prop
  | .everything, _ => True
  | .exact s, key => s = key
  | .under path, key => path <+: lowered key

instance (scope : Scope) (key : Bytes) : Decidable (scope.covers key) := by
  cases scope <;> unfold Scope.covers <;> infer_instance

namespace Invalidation

def asked (call : Invalidation) : Scope :=
  if call.all || call.selector.isEmpty then .everything
  else if call.ranged then .under call.path else .exact call.path

/- The zone the rule is inserted into: the garbage step done, the serial advanced. -/
def stamped (z : Zone) : Zone :=
  let z := reclaimGarbage 64 z
  {z with shared := {z.shared with serial := z.shared.serial + 1}}

def selects (call : Invalidation) (key : Bytes) : Prop :=
  if call.all || call.key.isEmpty then True
  else if call.ranged then lowered call.selector <+: lowered key
  else key = call.key

instance (call : Invalidation) (key : Bytes) : Decidable (call.selects key) := by
  unfold selects
  infer_instance

def refused (call : Invalidation) (z : Zone) : Bool := (insertRule call (stamped z)).1.isNone

def scope (call : Invalidation) (z : Zone) : Scope :=
  if call.refused z then .everything else call.asked

end Invalidation

theorem selectsCovers {call : Invalidation} {key : Bytes} (selects : call.selects key) (z : Zone) :
    (call.scope z).covers key := by
  unfold Invalidation.scope
  split
  · trivial
  · unfold Invalidation.asked
    split
    · trivial
    · rename_i named
      simp only [Bool.or_eq_true,not_or,Bool.not_eq_true] at named
      have some : call.key.isEmpty = false := by
        have h := named.2
        simp only [Invalidation.selector] at h
        split at h
        · rename_i ranged
          cases key : call.key with
          | nil => simp [Invalidation.ranged,key] at ranged
          | cons _ _ => rfl
        · exact h
      simp only [Invalidation.selects,named.1,some,Bool.or_self,Bool.false_eq_true,if_false] at selects
      split at selects
      · rename_i ranged
        simpa only [ranged,if_true,Scope.covers,Invalidation.path] using selects
      · rename_i exact
        simp [exact,Scope.covers,Invalidation.path,Invalidation.selector,selects]

theorem reclaimShared (n : Nat) (z : Zone) :
    ∃ rest, (reclaimGarbage n z).shared = {z.shared with garbage := rest} := by
  induction n generalizing z with
  | zero => exact ⟨z.shared.garbage,rfl⟩
  | succ n ih =>
    unfold reclaimGarbage
    split
    · exact ⟨z.shared.garbage,rfl⟩
    · rename_i node rest _
      exact ih ⟨{z.shared with garbage := rest},z.live.erase node⟩

theorem stampedShared (z : Zone) : ∃ rest,
    (Invalidation.stamped z).shared = {z.shared with serial := z.shared.serial + 1, garbage := rest} := by
  obtain ⟨rest,h⟩ := reclaimShared 64 z
  exact ⟨rest,by simp [Invalidation.stamped,h]⟩

theorem insertShared (call : Invalidation) (z : Zone) : ∃ chain last,
    (insertRule call z).2.1.shared = {z.shared with allocated := chain, tail := last} := by
  have kept : ∀ (s : Zone × List (Option Nat)) a,
      (∃ chain last, s.1.shared = {z.shared with allocated := chain, tail := last}) →
      ruleAlloc s = some a →
      ∃ chain last, a.2.1.shared = {z.shared with allocated := chain, tail := last} := by
    rintro ⟨w,answers⟩ a ⟨chain,last,h⟩ ok
    unfold ruleAlloc at ok
    split at ok <;> try contradiction
    split at ok <;> try contradiction
    rename_i same _
    cases same
    cases Option.some.inj ok
    exact ⟨_,_,by rw [h]⟩
  exact SiblingTrie.insertInvariant kept call.path ⟨z.shared.allocated,z.shared.tail,rfl⟩ _

theorem freshCell (s : Zone × List (Option Nat)) (a) (ok : ruleAlloc s = some a) :
    a.1.generation = 0 := by
  unfold ruleAlloc at ok
  split at ok <;> try contradiction
  split at ok <;> try contradiction
  cases Option.some.inj ok
  rfl

theorem insertedReading {call : Invalidation} {z : Zone} {rules : Rules} {rest}
    (ok : insertRule call z = (some rules,rest)) (word : Bytes) :
    SiblingTrie.reading RuleCell.generation 0 word rules =
      if word = call.path ∧ call.path ≠ [] then z.shared.serial
      else SiblingTrie.reading RuleCell.generation 0 word
        (if call.ranged then z.shared.prefixRules else z.shared.exactRules) := by
  unfold insertRule at ok
  refine SiblingTrie.insertReading freshCell ?_ ok word
  intro cell
  rfl

inductive Effect (s t : Generation) : Scope → Prop where
  | everything (baseline : t.baseline = t.serial) (exact : ∀ key, exactReading t key = 0)
      (ranged : ∀ path, prefixReading t path = 0) : Effect s t .everything
  | exact {key} (baseline : t.baseline = s.baseline)
      (stamped : ∀ k, exactReading t k = if k = key then t.serial else exactReading s k)
      (ranged : ∀ path, prefixReading t path = prefixReading s path) : Effect s t (.exact key)
  | under {path} (baseline : t.baseline = s.baseline)
      (exact : ∀ key, exactReading t key = exactReading s key)
      (stamped : ∀ p, prefixReading t p = if p = path then t.serial else prefixReading s p) :
      Effect s t (.under path)

theorem resetEffect (s state : Generation) : Effect s (generationReset state) .everything := by
  refine .everything ?_ (fun key => ?_) (fun path => ?_) <;>
  · simp only [generationReset]
    split <;> simp [exactReading,prefixReading]

theorem resetKeeps (state : Generation) :
    (generationReset state).serial = state.serial ∧ (generationReset state).epoch = state.epoch := by
  simp only [generationReset]
  split <;> exact ⟨rfl,rfl⟩

theorem pathNonempty {call : Invalidation} (some : call.selector.isEmpty = false) :
    call.path ≠ [] := by
  have h : call.selector ≠ [] := by simpa using some
  unfold Invalidation.path
  split
  · simpa [lowered] using h
  · exact h

structure Published (call : Invalidation) (z z' : Zone) : Prop where
  serial : z'.shared.serial = z.shared.serial + 1
  epoch : z'.shared.epoch = z.shared.epoch
  effect : Effect z.shared z'.shared (call.scope z)

theorem resetPublished {call : Invalidation} {z w : Zone} (live : List Nat)
    (scope : call.scope z = .everything) (serial : w.shared.serial = z.shared.serial + 1)
    (epoch : w.shared.epoch = z.shared.epoch) :
    Published call z ⟨generationReset w.shared,live⟩ := by
  refine ⟨(resetKeeps _).1.trans serial,(resetKeeps _).2.trans epoch,?_⟩
  rw [scope]
  exact resetEffect _ _

def writeRule (call : Invalidation) (z : Zone) : Zone :=
  if call.all || call.selector.isEmpty then {z with shared := generationReset z.shared}
  else match insertRule call z with
    | (none, z, _) => {z with shared := generationReset z.shared}
    | (some rules, z, _) =>
      if call.ranged then {z with shared := {z.shared with prefixRules := rules}}
      else {z with shared := {z.shared with exactRules := rules}}

theorem published (call : Invalidation) (z : Zone) : Published call z (generationPublish call z) := by
  obtain ⟨garbage,before⟩ := stampedShared z
  obtain ⟨chain,last,after⟩ := insertShared call (Invalidation.stamped z)
  change Published call z (writeRule call (Invalidation.stamped z))
  unfold writeRule
  by_cases whole : (call.all || call.selector.isEmpty) = true
  · rw [if_pos whole]
    exact resetPublished _ (by simp [Invalidation.scope,Invalidation.asked,whole])
      (by rw [before]) (by rw [before])
  · rw [if_neg whole]
    simp only [Bool.or_eq_true,not_or,Bool.not_eq_true] at whole
    split
    · rename_i w answers inserted
      rw [inserted,before] at after
      exact resetPublished _ (by simp [Invalidation.scope,Invalidation.refused,inserted])
        (by rw [after]) (by rw [after])
    · rename_i rules w answers inserted
      rw [inserted,before] at after
      change w.shared = _ at after
      have granted : call.refused z = false := by simp [Invalidation.refused,inserted]
      have reads := insertedReading inserted
      simp only [pathNonempty whole.2,ne_eq,not_false_eq_true,and_true,before] at reads
      by_cases ranged : call.ranged = true
      · have scope : call.scope z = .under call.path := by
          simp [Invalidation.scope,Invalidation.asked,granted,whole.1,whole.2,ranged]
        simp only [ranged,if_true] at reads ⊢
        refine ⟨by simp [after],by simp [after],?_⟩
        rw [scope]
        refine .under (by simp [after]) (fun key => ?_) (fun p => ?_)
        · simp [exactReading,after]
        · simp [prefixReading,after,reads]
      · have scope : call.scope z = .exact call.path := by
          simp [Invalidation.scope,Invalidation.asked,granted,whole.1,whole.2,ranged]
        simp only [ranged,if_false,Bool.false_eq_true] at reads ⊢
        refine ⟨by simp [after],by simp [after],?_⟩
        rw [scope]
        refine .exact (by simp [after]) (fun key => ?_) (fun p => ?_)
        · simp [exactReading,after,reads]
        · simp [prefixReading,after]

theorem serialAdvances {serial : UInt64} (room : serial ≠ 0xFFFFFFFFFFFFFFFF) :
    (serial + 1).toNat = serial.toNat + 1 := by
  have limit := serial.toNat_lt
  have different : serial.toNat ≠ 0xFFFFFFFFFFFFFFFF := fun h => room (UInt64.toNat_inj.mp h)
  rw [UInt64.toNat_add]
  exact Nat.mod_eq_of_lt (by simp; omega)

section effects
variable {s t : Generation} {scope : Scope} (bounded : s.Bounded)
  (advanced : s.serial.toNat < t.serial.toNat) (effect : Effect s t scope)
include bounded advanced effect

theorem effectBounded : t.Bounded := by
  have older {g : UInt64} (h : g ≤ s.serial) : g ≤ t.serial :=
    le_trans (UInt64.le_iff_toNat_le.mp h) advanced.le
  cases effect with
  | everything baseline exact ranged =>
    exact ⟨by simp [baseline],by simp [exact],by simp [ranged]⟩
  | exact baseline stamped ranged =>
    refine ⟨baseline ▸ older bounded.baseline,fun k => ?_,fun p => ranged p ▸ older (bounded.ranged p)⟩
    rw [stamped]
    split
    · exact UInt64.le_refl _
    · exact older (bounded.exact k)
  | under baseline exact stamped =>
    refine ⟨baseline ▸ older bounded.baseline,fun k => exact k ▸ older (bounded.exact k),fun p => ?_⟩
    rw [stamped]
    split
    · exact UInt64.le_refl _
    · exact older (bounded.ranged p)

theorem effectLookup (key : Bytes) :
    generationLookup t key = if scope.covers key then t.serial else generationLookup s key := by
  have base : s.baseline.toNat ≤ s.serial.toNat := bounded.baseline
  have exactly (k) : (exactReading s k).toNat ≤ s.serial.toNat := bounded.exact k
  have ranging (p) : (prefixReading s p).toNat ≤ s.serial.toNat := bounded.ranged p
  cases effect with
  | everything baseline exact ranged =>
    rw [if_pos (by trivial)]
    exact lookupUnique fun n => by simp [baseline,exact,ranged]
  | @exact stampedKey baseline stamped ranged =>
    by_cases same : stampedKey = key
    · rw [if_pos (show (Scope.exact stampedKey).covers key from same)]
      subst stampedKey
      refine lookupUnique fun n => ⟨fun h => by simpa [stamped] using h.2.1,fun h => ?_⟩
      refine ⟨by rw [baseline]; omega,by simpa [stamped] using h,fun p _ => ?_⟩
      have := ranging p
      rw [ranged]
      omega
    · rw [if_neg (show ¬ (Scope.exact stampedKey).covers key from same)]
      refine lookupUnique fun n => ?_
      rw [lookupBound,baseline,stamped,if_neg (Ne.symm same)]
      simp only [ranged]
  | @under path baseline exact stamped =>
    by_cases begins : path <+: lowered key
    · rw [if_pos (show (Scope.under path).covers key from begins)]
      refine lookupUnique fun n => ⟨fun h => by simpa [stamped] using h.2.2 path begins,fun h => ?_⟩
      have := exactly key
      refine ⟨by rw [baseline]; omega,by rw [exact]; omega,fun p _ => ?_⟩
      have := ranging p
      rw [stamped]
      split <;> omega
    · rw [if_neg (show ¬ (Scope.under path).covers key from begins)]
      refine lookupUnique fun n => ?_
      rw [lookupBound,baseline,exact]
      have same (p) (inside : p <+: lowered key) : prefixReading t p = prefixReading s p := by
        rw [stamped,if_neg]
        rintro rfl
        exact begins inside
      exact and_congr_right fun _ => and_congr_right fun _ =>
        forall_congr' fun p => imp_congr_right fun inside => by rw [same p inside]

theorem effectPublishes : (versions s bounded).Publishes scope.covers
    (versions t (effectBounded bounded advanced effect)) := by
  refine ⟨advanced,fun k covers => ?_,fun k apart => ?_⟩
  · simp [versions,effectLookup bounded advanced effect,covers]
  · simp [versions,effectLookup bounded advanced effect,apart]

end effects

theorem invalidateOutcome (name : Name) (call : Invalidation) (z : Zone) :
    ((generationInvalidate name call z).1 ≠ .ok ∧ (generationInvalidate name call z).2 = z) ∨
    ((generationInvalidate name call z).1 = .ok ∧
      (generationInvalidate name call z).2 = generationPublish call z ∧
      call.locked = true ∧ expectedMatches name call z.shared = true ∧
      z.shared.serial ≠ 0xFFFFFFFFFFFFFFFF) := by
  unfold generationInvalidate
  split
  · exact .inl ⟨by simp,rfl⟩
  split
  · exact .inl ⟨by simp,rfl⟩
  split
  · exact .inl ⟨by simp,rfl⟩
  split
  · exact .inl ⟨by simp,rfl⟩
  · rename_i _ locked admitted room
    exact .inr ⟨rfl,rfl,by simpa using locked,by simpa using admitted,room⟩

/- One call moves a bounded zone to a bounded zone of the same epoch whose
version table has grown; an accepted call is one publication of its scope. -/
structure Moved (z z' : Zone) (bounded : z.shared.Bounded) : Prop where
  bounded' : z'.shared.Bounded
  epoch : z'.shared.epoch = z.shared.epoch
  grows : (versions z.shared bounded).Grows (versions z'.shared bounded')

theorem movedRefl {z : Zone} (bounded : z.shared.Bounded) : Moved z z bounded :=
  ⟨bounded,rfl,VersionTable.growsRefl _⟩

theorem movedTrans {a b c : Zone} {bounded : a.shared.Bounded} (left : Moved a b bounded)
    (right : Moved b c left.bounded') : Moved a c bounded :=
  ⟨right.bounded',right.epoch.trans left.epoch,VersionTable.growsTrans left.grows right.grows⟩

structure Accepted (call : Invalidation) (z z' : Zone) (bounded : z.shared.Bounded) : Prop
    extends Moved z z' bounded where
  serial : z'.shared.serial.toNat = z.shared.serial.toNat + 1
  publishes : (versions z.shared bounded).Publishes (call.scope z).covers (versions z'.shared bounded')
  lookup : ∀ key, generationLookup z'.shared key =
    if (call.scope z).covers key then z'.shared.serial else generationLookup z.shared key

theorem invalidateAccepted {name : Name} {call : Invalidation} {z : Zone} (bounded : z.shared.Bounded)
    (ok : (generationInvalidate name call z).1 = .ok) :
    Accepted call z (generationInvalidate name call z).2 bounded := by
  rcases invalidateOutcome name call z with ⟨refused,_⟩ | ⟨_,same,_,_,room⟩
  · exact absurd ok refused
  rw [same]
  have step := published call z
  have advanced : (generationPublish call z).shared.serial.toNat = z.shared.serial.toNat + 1 := by
    rw [step.serial,serialAdvances room]
  have less : z.shared.serial.toNat < (generationPublish call z).shared.serial.toNat := by omega
  have publishes := effectPublishes bounded less step.effect
  exact ⟨⟨effectBounded bounded less step.effect,step.epoch,VersionTable.publishGrows publishes⟩,
    advanced,publishes,effectLookup bounded less step.effect⟩

theorem invalidateMoved (name : Name) (call : Invalidation) {z : Zone} (bounded : z.shared.Bounded) :
    Moved z (generationInvalidate name call z).2 bounded := by
  by_cases ok : (generationInvalidate name call z).1 = .ok
  · exact (invalidateAccepted bounded ok).toMoved
  · rcases invalidateOutcome name call z with ⟨_,same⟩ | ⟨accepted,_⟩
    · rw [same]
      exact movedRefl bounded
    · exact absurd accepted ok

end CachePurge
