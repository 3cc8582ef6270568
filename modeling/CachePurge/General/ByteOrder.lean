import Mathlib.Data.Nat.Digits.Lemmas

/-! The number that a machine reads from the bytes of a word in memory, in either
byte order, and what arithmetic on such numbers does to the bytes. -/
namespace CachePurge.General

inductive ByteOrder where
  | little | big
  deriving DecidableEq, Repr

namespace ByteOrder

def leastFirst : ByteOrder → List UInt8 → List UInt8
  | little,bytes => bytes
  | big,bytes => bytes.reverse

def load (order : ByteOrder) (bytes : List UInt8) : Nat :=
  Nat.ofDigits 256 ((order.leastFirst bytes).map UInt8.toNat)

variable (order : ByteOrder) {a b : List UInt8}

@[simp] theorem leastFirstLength (bytes : List UInt8) : (order.leastFirst bytes).length = bytes.length := by
  cases order with
  | little => rfl
  | big => exact List.length_reverse

theorem leastFirstSame : order.leastFirst a = order.leastFirst b ↔ a = b := by
  cases order with
  | little => exact Iff.rfl
  | big => exact List.reverse_inj

theorem leastFirstZip (f : UInt8 → UInt8 → UInt8) (same : a.length = b.length) :
    order.leastFirst (List.zipWith f a b) = List.zipWith f (order.leastFirst a) (order.leastFirst b) := by
  cases order with
  | little => rfl
  | big => exact List.reverse_zipWith same

theorem digitsSmall (bytes : List UInt8) : ∀ digit ∈ bytes.map UInt8.toNat, digit < 256 := by
  intro digit member
  obtain ⟨c,_,rfl⟩ := List.mem_map.mp member
  exact c.toNat_lt

theorem loadBound (bytes : List UInt8) : order.load bytes < 256 ^ bytes.length := by
  have bound := Nat.ofDigits_lt_base_pow_length (by decide) (digitsSmall (order.leastFirst bytes))
  rwa [List.length_map,leastFirstLength] at bound

/- Words of one width hold the same number only when they hold the same bytes. -/
theorem loadSame (same : a.length = b.length) : order.load a = order.load b ↔ a = b := by
  constructor
  · intro equal
    have digits := Nat.ofDigits_inj_of_len_eq (by decide) (by simp [same]) (digitsSmall _) (digitsSmall _) equal
    exact (leastFirstSame order).mp (List.map_injective_iff.mpr (fun _ _ => UInt8.toNat_inj.mp) digits)
  · rintro rfl
    rfl

theorem digitAnd (x y : Nat) (a b : UInt8) :
    (a.toNat + 256 * x) &&& (b.toNat + 256 * y) = (a &&& b).toNat + 256 * (x &&& y) := by
  refine Nat.eq_of_testBit_eq fun i => ?_
  rw [UInt8.toNat_and,Nat.add_comm,Nat.add_comm _ (256 * y),Nat.add_comm _ (256 * (x &&& y)),Nat.testBit_and,
    show 256 = 2 ^ 8 from rfl,Nat.testBit_two_pow_mul_add _ a.toNat_lt,Nat.testBit_two_pow_mul_add _ b.toNat_lt,
    Nat.testBit_two_pow_mul_add _ (Nat.and_lt_two_pow _ b.toNat_lt),Nat.testBit_and,Nat.testBit_and]
  split <;> rfl

theorem digitsAnd (same : a.length = b.length) :
    Nat.ofDigits 256 ((List.zipWith (· &&& ·) a b).map UInt8.toNat) =
      Nat.ofDigits 256 (a.map UInt8.toNat) &&& Nat.ofDigits 256 (b.map UInt8.toNat) := by
  induction a generalizing b with
  | nil => simp
  | cons c a ih =>
    cases b with
    | nil => contradiction
    | cons d b =>
      have rest := ih (Nat.succ.inj same)
      simp only [List.zipWith_cons_cons,List.map_cons,Nat.ofDigits_cons,rest,digitAnd]

theorem loadAnd (same : a.length = b.length) :
    order.load (List.zipWith (· &&& ·) a b) = order.load a &&& order.load b := by
  rw [load,leastFirstZip order _ same]
  exact digitsAnd (by simpa using same)

end ByteOrder
end CachePurge.General
