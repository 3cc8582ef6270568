import Mathlib.Data.BitVec
import Mathlib.Data.Nat.Bitwise
import Mathlib.Tactic.Common

/-! Unsigned arithmetic of one width that keeps a record of what it computed. A computation
carries every operation it made with its operands, so that an operation which left the
range of the width can be told from its record. -/
namespace CachePurge.General

inductive Operator where
  | add
  | sub
  | mul
  deriving DecidableEq, Repr

/- An operation as it was carried out. -/
structure Operation (w : Nat) where
  operator : Operator
  left : BitVec w
  right : BitVec w
  deriving DecidableEq, Repr

namespace Operation
variable {w : Nat}

def value (o : Operation w) : BitVec w :=
  match o.operator with
  | .add => o.left + o.right
  | .sub => o.left - o.right
  | .mul => o.left * o.right

def meaning (o : Operation w) : Int :=
  match o.operator with
  | .add => o.left.toNat + o.right.toNat
  | .sub => o.left.toNat - o.right.toNat
  | .mul => o.left.toNat * o.right.toNat

def Exact (o : Operation w) : Prop := (o.value.toNat : Int) = o.meaning
instance (o : Operation w) : Decidable o.Exact := by unfold Exact; infer_instance

theorem exactAdd {a b : BitVec w} (h : a.toNat + b.toNat < 2 ^ w) : Exact ⟨.add,a,b⟩ := by
  simp only [Exact,value,meaning,BitVec.toNat_add_of_lt h]
  omega

theorem exactSub {a b : BitVec w} (h : b.toNat ≤ a.toNat) : Exact ⟨.sub,a,b⟩ := by
  simp only [Exact,value,meaning,BitVec.toNat_sub_of_le (BitVec.le_def.mpr h)]
  omega

theorem exactMul {a b : BitVec w} (h : a.toNat * b.toNat < 2 ^ w) : Exact ⟨.mul,a,b⟩ := by
  simp only [Exact,value,meaning,BitVec.toNat_mul_of_lt h]
  push_cast
  rfl

end Operation

/- A computation that may fail, with the operations up to its end. -/
structure Computed (w : Nat) (ε α : Type) where
  operations : List (Operation w)
  outcome : Except ε α
  deriving Repr

namespace Computed
variable {w : Nat} {ε α β : Type}

protected def pure (a : α) : Computed w ε α := ⟨[],.ok a⟩

protected def bind (x : Computed w ε α) (f : α → Computed w ε β) : Computed w ε β :=
  match x.outcome with
  | .ok a => ⟨x.operations ++ (f a).operations,(f a).outcome⟩
  | .error e => ⟨x.operations,.error e⟩

instance : Monad (Computed w ε) where
  pure := Computed.pure
  bind := Computed.bind

def fail (e : ε) : Computed w ε α := ⟨[],.error e⟩

def compute (o : Operation w) : Computed w ε (BitVec w) := ⟨[o],.ok o.value⟩

def add (a b : BitVec w) : Computed w ε (BitVec w) := compute ⟨.add,a,b⟩
def sub (a b : BitVec w) : Computed w ε (BitVec w) := compute ⟨.sub,a,b⟩
def mul (a b : BitVec w) : Computed w ε (BitVec w) := compute ⟨.mul,a,b⟩

structure Sound (excused : Operation w → Prop) (x : Computed w ε α) (post : α → Prop) : Prop where
  exact : ∀ o ∈ x.operations, o.Exact ∨ excused o
  reached : ∀ a, x.outcome = .ok a → post a

variable {excused : Operation w → Prop} {post : α → Prop} {next : β → Prop}

theorem soundPure {a : α} (h : post a) : Sound excused (pure a : Computed w ε α) post := by
  constructor
  · intro o member
    cases member
  · intro b reached
    cases reached
    exact h

theorem soundFail {e : ε} : Sound excused (fail e : Computed w ε α) post := by
  constructor
  · intro o member
    cases member
  · intro b reached
    cases reached

theorem soundBind {x : Computed w ε α} {f : α → Computed w ε β} (head : Sound excused x post)
    (tail : ∀ a, post a → Sound excused (f a) next) : Sound excused (x >>= f) next := by
  change Sound excused (Computed.bind x f) next
  cases h : x.outcome with
  | error e =>
    simp only [Computed.bind,h]
    constructor
    · exact head.exact
    · intro b reached
      cases reached
  | ok a =>
    have rest := tail a (head.reached a h)
    simp only [Computed.bind,h]
    constructor
    · intro o member
      rcases List.mem_append.mp member with before | after
      · exact head.exact o before
      · exact rest.exact o after
    · exact rest.reached

theorem soundWeaken {x : Computed w ε α} {weaker : α → Prop} (h : Sound excused x post)
    (weaken : ∀ a, post a → weaker a) : Sound excused x weaker := by
  constructor
  · exact h.exact
  · intro a reached
    exact weaken a (h.reached a reached)

theorem soundFold {f : β → α → Computed w ε β} (inv : List α → β → Prop)
    (step : ∀ a rest b, inv (a :: rest) b → Sound excused (f b a) (inv rest)) :
    ∀ items b, inv items b → Sound excused (items.foldlM f b) (inv []) := by
  intro items
  induction items with
  | nil =>
    intro b start
    exact soundPure start
  | cons a rest ih =>
    intro b start
    rw [List.foldlM_cons]
    exact soundBind (step a rest b start) ih

theorem soundCompute {o : Operation w} (h : o.Exact ∨ excused o) :
    Sound excused (compute o : Computed w ε (BitVec w)) (fun c => c = o.value) := by
  constructor
  · intro p member
    simp only [compute,List.mem_singleton] at member
    exact member ▸ h
  · intro c reached
    cases reached
    rfl

theorem soundAdd {a b : BitVec w} (h : a.toNat + b.toNat < 2 ^ w) :
    Sound excused (add a b : Computed w ε (BitVec w)) (fun c => c.toNat = a.toNat + b.toNat) := by
  apply soundWeaken (soundCompute (Or.inl (Operation.exactAdd h)))
  intro c same
  rw [same]
  exact BitVec.toNat_add_of_lt h

theorem soundSub {a b : BitVec w} (h : b.toNat ≤ a.toNat) :
    Sound excused (sub a b : Computed w ε (BitVec w)) (fun c => c.toNat = a.toNat - b.toNat) := by
  apply soundWeaken (soundCompute (Or.inl (Operation.exactSub h)))
  intro c same
  rw [same]
  exact BitVec.toNat_sub_of_le (BitVec.le_def.mpr h)

theorem soundMul {a b : BitVec w} (h : a.toNat * b.toNat < 2 ^ w) :
    Sound excused (mul a b : Computed w ε (BitVec w)) (fun c => c.toNat = a.toNat * b.toNat) := by
  apply soundWeaken (soundCompute (Or.inl (Operation.exactMul h)))
  intro c same
  rw [same]
  exact BitVec.toNat_mul_of_lt h

end Computed

def cleared (n mask : Nat) : Nat := n - (n &&& mask)

theorem clearedPast {w n mask : Nat} (past : 2 ^ w ≤ n) (within : mask < 2 ^ w) : 2 ^ w ≤ cleared n mask := by
  have low : n &&& mask ≤ n % 2 ^ w := by
    have split : n &&& mask = (n % 2 ^ w) &&& mask := by
      rw [← Nat.and_two_pow_sub_one_eq_mod,Nat.and_assoc,Nat.and_comm (2 ^ w - 1) mask,
        Nat.and_two_pow_sub_one_eq_mod,Nat.mod_eq_of_lt within]
    rw [split]
    exact Nat.and_le_left
  have parts := Nat.div_add_mod n (2 ^ w)
  have positive : 1 ≤ n / 2 ^ w := (Nat.one_le_div_iff (Nat.two_pow_pos w)).mpr past
  have high : 2 ^ w * 1 ≤ 2 ^ w * (n / 2 ^ w) := Nat.mul_le_mul_left _ positive
  unfold cleared
  omega

theorem clearedMask {w : Nat} (x m : BitVec w) : (x &&& ~~~m).toNat = cleared x.toNat m.toNat := by
  have apart : (x &&& ~~~m) &&& (x &&& m) = 0 := by
    ext i h
    simp
    grind
  have whole : (x &&& ~~~m) + (x &&& m) = x := by
    rw [BitVec.add_eq_or_of_and_eq_zero _ _ apart]
    ext i h
    simp
    grind
  have parts := BitVec.toNat_add_of_and_eq_zero apart
  have masked : (x &&& m).toNat = x.toNat &&& m.toNat := BitVec.toNat_and x m
  rw [whole,masked] at parts
  unfold cleared
  omega

def alignTo (n unit : Nat) : Nat := cleared (n + (unit - 1)) (unit - 1)

theorem alignToPower (n k : Nat) : alignTo n (2 ^ k) = (n + (2 ^ k - 1)) / 2 ^ k * 2 ^ k := by
  rw [alignTo,cleared,Nat.and_two_pow_sub_one_eq_mod,← Nat.div_mul_self_eq_mod_sub_self]

theorem alignToDivides (n k : Nat) : 2 ^ k ∣ alignTo n (2 ^ k) := by
  rw [alignToPower]
  exact Nat.dvd_mul_left _ _

theorem alignToHolds (n k : Nat) : n ≤ alignTo n (2 ^ k) := by
  have positive := Nat.two_pow_pos k
  have parts := Nat.div_add_mod (n + (2 ^ k - 1)) (2 ^ k)
  have small := Nat.mod_lt (n + (2 ^ k - 1)) positive
  rw [alignToPower,Nat.mul_comm]
  omega

def Computed.align {w : Nat} {ε : Type} (n unit : BitVec w) : Computed w ε (BitVec w) := do
  let mask ← Computed.sub unit 1
  let raised ← Computed.add n mask
  let mask ← Computed.sub unit 1
  return raised &&& ~~~mask

theorem Computed.soundAlign {w : Nat} {ε : Type} {excused : Operation w → Prop} {n unit : BitVec w}
    (wide : 0 < w) (positive : 0 < unit.toNat) (fits : n.toNat + (unit.toNat - 1) < 2 ^ w) :
    Sound excused (Computed.align n unit : Computed w ε (BitVec w)) (fun c => c.toNat = alignTo n.toNat unit.toNat) := by
  have one : (1 : BitVec w).toNat = 1 := by
    have large : 1 < 2 ^ w := Nat.one_lt_two_pow wide.ne'
    simp [Nat.mod_eq_of_lt large]
  unfold Computed.align
  apply soundBind (soundSub (by omega))
  intro mask maskValue
  apply soundBind (soundAdd (by omega))
  intro raised raisedValue
  apply soundBind (soundSub (by omega))
  intro again againValue
  apply soundPure
  rw [clearedMask,raisedValue,maskValue,againValue,one]
  rfl

end CachePurge.General
