import CachePurge.WorkerSteps

/-! What a pass leaves in the counters of deletions and errors: its end books each of
them once, in the slot of the worker that ends it, and nothing else touches them. -/
namespace CachePurge
open General

/- The counters that the walk of a pass fills. -/
def Metric.walked : Metric → Bool
  | .deleted | .deleteErrors | .scanErrors | .deletedBytes => true
  | _ => false

def passBookings (slot : Slot) (a : Nat) (c : Counters) : List (Booking Account) :=
  [⟨⟨a,slot,.deleted⟩,c.filesDeleted.toNat⟩,⟨⟨a,slot,.deleteErrors⟩,c.deleteErrors.toNat⟩,
    ⟨⟨a,slot,.scanErrors⟩,c.scanErrors.toNat⟩,⟨⟨a,slot,.deletedBytes⟩,c.bytesDeleted.toNat⟩]

def Unwalked (q q' : Queue) : Prop := ∀ k : Account, k.field.walked = true → q'.ledger k = q.ledger k

section sections
variable {slot : Option Slot} {q q' : Queue} {k : Account}

theorem unwalkedTrans {q'' : Queue} (left : Unwalked q q') (right : Unwalked q' q'') : Unwalked q q'' :=
  fun k walked => (right k walked).trans (left k walked)

theorem statAddWalked (walked : k.field.walked = true) {field : Metric} (plain : field.walked = false)
    (slot : Option Slot) (a : Nat) (value : UInt64) (q : Queue) :
    ledgerOf (q.statAdd slot a field value).path k = ledgerOf q.path k := by
  cases slot with
  | none => rfl
  | some slot =>
    rw [statAddLedger,Booking.enter,Function.update_of_ne]
    rintro rfl
    exact Bool.noConfusion (plain.symm.trans walked)

theorem enqueueUnwalked {platform : Platform} {names : Nat → Name} {exiting : Bool} {p : Purge} {o : Outcome}
    {zones : Nat → Zone} : Unwalked q (enqueue platform names slot exiting p o q zones).2.1 := by
  intro k walked
  have renewed (a : Nat) (t : TaskId) : (renewTask slot p a t q).ledger k = q.ledger k := by
    unfold renewTask Queue.ledger
    dsimp only
    split <;> simp (disch := decide) [statAddWalked walked,-statAddLedger]
  have admitted (a : Nat) (t : TaskId) : (admitTask names slot p a t (q.put t .zeroed)).ledger k = q.ledger k := by
    unfold admitTask Queue.ledger
    dsimp only
    split <;> simp (disch := decide) [statAddWalked walked,-statAddLedger]
  have ways := @enqueueCases platform names slot p o q zones exiting
  generalize enqueue platform names slot exiting p o q zones = out at ways ⊢
  cases ways with
  | refused other declined => rfl
  | renewed found indexed published => exact renewed _ _
  | admitted found absent room fresh published => exact admitted _ _

theorem recoverUnwalked (alive : Pid → Bool) (now : UInt64) (locked : Bool) :
    Unwalked q (recover slot alive now locked q).1 := by
  refine @recoverInvariant slot alive now (fun _ q' => Unwalked q q') (fun _ q' kept => unwalkedTrans kept ?_) [] q
    (fun _ _ => rfl) locked
  intro k walked
  unfold recoverOne
  split
  · rfl
  split
  · rfl
  split
  · rfl
  · simp (disch := decide) [Queue.ledger,statAddWalked walked,-statAddLedger]

theorem takeUnwalked {names : Nat → Name} {namespaces : List Nat} {pid : Pid} {slot : Slot} {leaving locked poolFound : Bool}
    {now : UInt64} {w : Work} :
    Unwalked q (takeTask names namespaces pid slot leaving now locked poolFound q w).2.1 := by
  intro k walked
  have ways := @takeCases slot now names namespaces pid q w leaving locked poolFound
  generalize takeTask names namespaces pid slot leaving now locked poolFound q w = taken at ways ⊢
  cases ways with
  | idle code => rfl
  | turned selected => rfl
  | started staying selected here =>
    unfold startTask Queue.ledger
    dsimp only
    split <;> simp (disch := decide) [statAddWalked walked,-statAddLedger]

theorem initUnwalked {pid : Pid} {slot : Slot} (init : initWorker none pid slot q = some q') : Unwalked q q' := by
  intro k walked
  obtain ⟨_,_,_,_,_,_,_,paths,_⟩ := initWorkerSpec init
  exact congrArg UInt64.toNat ((paths k.path).stats k.slot k.field (by intro same; simp [same,Metric.walked] at walked))

theorem endTaskWalked {slot : Slot} {now : UInt64} {t : TaskId} {item : Item} {w : Work} (walked : k.field.walked = true) :
    (endTask slot now t item w q).ledger k = min (q.ledger k + due (passBookings slot item.path w.counters) k) counterMax := by
  have settled : ledgerOf (settleTask slot now t item w q).2.path k = ledgerOf q.path k := by
    have ways := @settleCases slot now t item q w
    generalize settleTask slot now t item w q = settled at ways ⊢
    cases ways with
    | again | done => rfl
    | retried | exhausted => simp (disch := decide) [statAddWalked walked,-statAddLedger]
  have finished {q : Queue} : ledgerOf (q.statAdd (some slot) item.path .finished 1).path k = ledgerOf q.path k :=
    statAddWalked walked rfl _ _ _ _
  have entered := booked (ledgerBelow ((settleTask slot now t item w q).2.statAdd (some slot) item.path .finished 1).path)
    (passBookings slot item.path w.counters) k
  rw [finished,settled] at entered
  rw [Queue.ledger,Queue.ledger,← entered]
  unfold endTask
  dsimp only
  split <;> simp (disch := decide) [passBookings,statAddWalked walked]

end sections

end CachePurge
