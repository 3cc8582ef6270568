import CachePurge.General.Tallies
import CachePurge.QueueChanges

/-! The counters of the cache paths as a ledger, one account for each path, slot and
metric, and what each change of the queue charges to the slot that makes it. -/
namespace CachePurge
open General

structure Account where
  path : Nat
  slot : Slot
  field : Metric
  deriving DecidableEq, Repr

def counterMax : Nat := 2^64 - 1

def ledgerOf (path : Nat → QueuePath) (k : Account) : Nat := ((path k.path).stats k.slot k.field).toNat

def Queue.ledger (q : Queue) : Account → Nat := ledgerOf q.path

section ledger
variable (slot : Slot) (a : Nat) (field : Metric) (value : UInt64) (t : TaskId) (q : Queue)

@[simp] theorem statAddNone : q.statAdd none a field value = q := rfl

theorem ledgerBelow (path : Nat → QueuePath) (k : Account) : ledgerOf path k ≤ counterMax :=
  Nat.le_pred_of_lt (UInt64.toNat_lt _)

theorem saturatingSum (old value : UInt64) :
    (old + min value (0xFFFFFFFFFFFFFFFF - old)).toNat = min (old.toNat + value.toNat) counterMax := by
  have top := old.toNat_lt
  have room : (0xFFFFFFFFFFFFFFFF - old).toNat = counterMax - old.toNat := by
    rw [UInt64.toNat_sub_of_le _ _ (UInt64.le_iff_toNat_le.mpr (Nat.le_pred_of_lt top))]
    rfl
  have least : (min value (0xFFFFFFFFFFFFFFFF - old)).toNat = min value.toNat (counterMax - old.toNat) := by
    rw [← room]
    change (if value ≤ 0xFFFFFFFFFFFFFFFF - old then value else 0xFFFFFFFFFFFFFFFF - old).toNat = _
    split
    · rename_i fits
      exact (min_eq_left (UInt64.le_iff_toNat_le.mp fits)).symm
    · rename_i beyond
      rw [UInt64.le_iff_toNat_le] at beyond
      exact (min_eq_right (Nat.le_of_not_le beyond)).symm
  rw [UInt64.toNat_add,least]
  unfold counterMax
  omega

@[simp] theorem statAddLedger : ledgerOf (q.statAdd (some slot) a field value).path =
    Booking.enter counterMax (ledgerOf q.path) ⟨⟨a,slot,field⟩,value.toNat⟩ := by
  funext ⟨b,i,f⟩
  simp only [Booking.enter,ledgerOf,Queue.statAdd,Queue.modifyPath,Function.update_apply,Account.mk.injEq]
  rcases eq_or_ne b a with rfl | path
  · rcases eq_or_ne i slot with rfl | apart
    · rcases eq_or_ne f field with rfl | other
      · simpa using saturatingSum _ _
      · simp [other]
    · simp [apart]
  · simp [path]

@[simp] theorem indexLedger (f : QueuePath → List TaskId) :
    ledgerOf (q.modifyPath a fun path => {path with index := f path}).path = ledgerOf q.path := by
  funext ⟨b,i,f⟩
  simp only [ledgerOf,Queue.modifyPath,Function.update_apply]
  split
  · rename_i same
    rw [same]
  · rfl

@[simp] theorem modifyPaths (f : Item → Item) : (q.modify t f).path = q.path := rfl

@[simp] theorem putPaths (item : Item) : (q.put t item).path = q.path := rfl

@[simp] theorem freePaths : (q.free t).path = q.path := rfl

end ledger

/- The counters that follow a task. -/
def Metric.counted : Metric → Bool
  | .enqueued | .enqueuedFull | .started | .startedFull | .finished => true
  | _ => false

namespace Act

def enters : Act → Nat
  | .accept _ _ | .requeue _ _ => 1
  | _ => 0

def starts : Act → Nat
  | .start _ _ => 1
  | _ => 0

def stops : Act → Nat
  | .requeue _ _ | .retire _ => 1
  | _ => 0

def item (q : Queue) : Act → Option Item
  | .shuffle => none
  | .accept _ item => some item
  | .renew t _ | .start t _ | .requeue t _ | .retire t => q.items t

def charge (act : Act) (full : Bool) : Metric → Nat
  | .enqueued => act.enters
  | .enqueuedFull => if full then act.enters else 0
  | .started => act.starts
  | .startedFull => if full then act.starts else 0
  | .finished => act.stops
  | _ => 0

def bill (act : Act) (q : Queue) (slot : Option Slot) (k : Account) : Nat :=
  ((act.item q).map fun item =>
    if slot = some k.slot ∧ item.path = k.path then act.charge item.purgeAll k.field else 0).getD 0

end Act

/- Every counter of tasks grows by what the act costs, in the slot that acts. -/
def Charged (slot : Option Slot) (q : Queue) (act : Act) (q' : Queue) : Prop :=
  ∀ k : Account, k.field.counted = true →
    q'.ledger k = min (q.ledger k + act.bill q slot k) counterMax

structure Accounted (slot : Option Slot) (q : Queue) (act : Act) (q' : Queue) : Prop where
  change : Change q act q'
  charged : Charged slot q act q'

@[simp] theorem unitAmount (b : Bool) : (if b = true then (1 : UInt64) else 0).toNat = if b = true then 1 else 0 := by
  cases b <;> rfl

section charges
variable {slot : Option Slot} {q q' : Queue} {act : Act}

theorem chargedBy (bookings : List (Booking Account))
    (ledger : q'.ledger = bookings.foldl (Booking.enter counterMax) q.ledger)
    (costs : ∀ k : Account, k.field.counted = true → due bookings k = act.bill q slot k) :
    Charged slot q act q' := by
  intro k counted
  rw [ledger,← costs k counted]
  exact booked (ledgerBelow q.path) bookings k

theorem chargedNothing (ledger : q'.ledger = q.ledger)
    (free : ∀ k : Account, k.field.counted = true → act.bill q slot k = 0) : Charged slot q act q' :=
  chargedBy [] ledger fun k counted => (free k counted).symm

theorem slotlessFree (k : Account) : act.bill q none k = 0 := by
  unfold Act.bill
  cases act.item q <;> simp

theorem chargedShuffle (path : q'.path = q.path) : Charged slot q .shuffle q' :=
  chargedNothing (by simp [Queue.ledger,path]) fun _ _ => rfl

end charges
end CachePurge
