import Mathlib.Algebra.BigOperators.Group.Finset.Piecewise
import Mathlib.Algebra.Order.BigOperators.Group.Finset
import Mathlib.Data.List.Count

/-! Counters that several parties keep in slots of their own, of which a reader
sees the sums over the slots. A booking adds to one counter and stops at the cap;
as long as the cap is not met, every sum grows by what was booked. -/
namespace CachePurge.General

section sums
variable {κ : Type} [DecidableEq κ] {keys : Finset κ} {k : κ} {f g : κ → Nat}

theorem sumWritten (within : k ∈ keys) (v : Nat) :
    (∑ i ∈ keys, Function.update f k v i) + f k = (∑ i ∈ keys, f i) + v := by
  have split := Finset.sum_sdiff (f := f) (Finset.singleton_subset_iff.mpr within)
  rw [Finset.sum_singleton] at split
  rw [Finset.sum_update_of_mem within,← split]
  omega

theorem sumAdded (within : k ∈ keys) {v : Nat} (added : ∀ i, g i = f i + if i = k then v else 0) :
    ∑ i ∈ keys, g i = (∑ i ∈ keys, f i) + v := by
  rw [Finset.sum_congr rfl fun i _ => added i,Finset.sum_add_distrib]
  simp [within]

/- Things that each belong to one key are as many as their counts together. -/
theorem countedByHome {α : Type} {l : List α} {home : α → κ} (within : ∀ x ∈ l, home x ∈ keys) :
    l.length = ∑ i ∈ keys, l.countP fun x => decide (home x = i) := by
  induction l with
  | nil => simp
  | cons x rest ih =>
    have first : home x ∈ keys := within x List.mem_cons_self
    have later := ih fun y member => within y (List.mem_cons_of_mem x member)
    rw [List.length_cons,later]
    refine (sumAdded first fun i => ?_).symm
    rw [List.countP_cons]
    rcases eq_or_ne (home x) i with rfl | other
    · simp
    · simp [other,Ne.symm other]

end sums

structure Booking (κ : Type) where
  account : κ
  amount : Nat
  deriving DecidableEq, Repr

section bookings
variable {κ : Type} [DecidableEq κ] (cap : Nat)

def Booking.enter (l : κ → Nat) (b : Booking κ) : κ → Nat :=
  Function.update l b.account (min (l b.account + b.amount) cap)

def due : List (Booking κ) → κ → Nat
  | [], _ => 0
  | b :: rest, k => (if b.account = k then b.amount else 0) + due rest k

@[simp] theorem dueNil (k : κ) : due [] k = 0 := rfl

@[simp] theorem dueCons (b : Booking κ) (rest : List (Booking κ)) (k : κ) :
    due (b :: rest) k = (if b.account = k then b.amount else 0) + due rest k := rfl

theorem dueAppend (front back : List (Booking κ)) (k : κ) : due (front ++ back) k = due front k + due back k := by
  induction front with
  | nil => simp
  | cons b rest ih => simp [ih,Nat.add_assoc]

variable {cap} {l : κ → Nat}

theorem booked (below : ∀ k, l k ≤ cap) (bookings : List (Booking κ)) (k : κ) :
    (bookings.foldl (Booking.enter cap) l) k = min (l k + due bookings k) cap := by
  induction bookings generalizing l with
  | nil => simp [due,below k]
  | cons b rest ih =>
    have below' : ∀ k, Booking.enter cap l b k ≤ cap := by
      intro k
      unfold Booking.enter
      rcases eq_or_ne k b.account with rfl | other
      · simp
      · simpa [other] using below k
    rw [List.foldl_cons,ih below']
    rcases eq_or_ne b.account k with rfl | other
    · simp only [Booking.enter,Function.update_self,dueCons,if_true]
      omega
    · simp [Booking.enter,other,Ne.symm other]

end bookings
end CachePurge.General
