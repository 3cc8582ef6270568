import CachePurge.PassCharges

/-! What a process notices of the steps of the others: they leave it alone, and what
its passes have counted in its slot too. -/
namespace CachePurge
open General

section others
variable {config : Config} {s : System} {pid : Pid}

theorem reviseOther {other : Pid} (apart : other ≠ pid) {f : Process → Process} (keeps : ∀ p, (f p).pid = p.pid) :
    (s.revise other f).find pid = s.find pid := by
  change (s.procs.map fun p => if p.pid == other then f p else p).find? (fun p => p.pid == pid) =
    s.procs.find? fun p => p.pid == pid
  induction s.procs with
  | nil => rfl
  | cons p rest ih =>
    rw [List.map_cons,List.find?_cons,List.find?_cons,ih]
    by_cases mine : p.pid = other
    · have first : (other == pid) = false := by simpa using apart
      simp [mine,keeps,first]
    · simp [mine]

theorem reviseSelf {p : Process} (found : s.find pid = some p) {f : Process → Process} (keeps : ∀ p, (f p).pid = p.pid) :
    (s.revise pid f).find pid = some (f p) := by
  change (s.procs.map fun p => if p.pid == pid then f p else p).find? (fun p => p.pid == pid) = some (f p)
  change s.procs.find? (fun p => p.pid == pid) = some p at found
  generalize s.procs = procs at found ⊢
  induction procs with
  | nil => simp at found
  | cons q rest ih =>
    rw [List.find?_cons] at found
    rw [List.map_cons,List.find?_cons]
    by_cases mine : q.pid = pid
    · simp only [mine,beq_self_eq_true] at found
      cases Option.some.inj found
      simp [mine,keeps]
    · have other : (q.pid == pid) = false := by simpa using mine
      simp only [other] at found
      simpa [other] using ih found

theorem setWorkSelf {p : Process} (found : s.find pid = some p) (w : Work) :
    (s.setWork pid w).find pid = some {p with work := w} := reviseSelf found fun _ => rfl

/- A step of a process changes no other process. -/
theorem processFind {p : Process} (apart : p.pid ≠ pid) {e : WorkerEvent} (mine : p.pid = e.pid) :
    (processStep config p s e).1.find pid = s.find pid := by
  have others {s' : System} (same : s'.procs = s.procs) {f : Process → Process} (keeps : ∀ p, (f p).pid = p.pid) :
      (s'.revise p.pid f).find pid = s.find pid := by
    rw [reviseOther apart keeps]
    exact congrArg (List.find? _) same
  cases e with
  | start _ _ _ _ => rfl
  | gone _ => rfl
  | thread _ _ => rfl
  | leave _ =>
    cases mine
    exact others rfl fun _ => rfl
  | enqueue _ _ _ => rfl
  | recover _ _ _ _ => rfl
  | take _ _ _ _ =>
    simp only [processStep,takeStep]
    split
    · rfl
    · exact others rfl fun _ => rfl
  | post _ _ =>
    cases mine
    simp only [processStep]
    split
    · exact others rfl fun _ => rfl
    · rfl
  | notify _ =>
    cases mine
    simp only [processStep]
    split
    · exact others rfl fun _ => rfl
    · rfl
  | slice _ _ _ =>
    cases mine
    simp only [processStep]
    split
    · exact others rfl fun _ => rfl
    · rfl
  | finish _ _ _ =>
    simp only [processStep,finishStep]
    split
    · rfl
    split
    · exact others rfl fun _ => rfl
    · rfl
  | exit _ _ _ => exact others rfl fun _ => rfl

theorem otherFind {e : WorkerEvent} (apart : e.pid ≠ pid) : (s.step config e).1.find pid = s.find pid := by
  have ways := stepCases config s e
  generalize s.step config e = out at ways ⊢
  cases ways with
  | idle => rfl
  | @started other slot threaded q' named pids slots init =>
    have new : (other == pid) = false := by simpa [WorkerEvent.pid] using apart
    simp [System.find,List.find?_append,new]
  | @gone other =>
    have apart : other ≠ pid := apart
    simp only [System.find,List.find?_filter]
    refine congrArg (fun test => s.procs.find? test) (funext fun p => ?_)
    by_cases mine : p.pid = pid
    · simp [mine,Ne.symm apart]
    · simp [mine]
  | threaded found => exact reviseOther apart fun _ => rfl
  | processed found running =>
    obtain ⟨_,mine⟩ := findMember found
    exact processFind (fun same => apart (mine.symm.trans same)) mine

theorem dueApart {bookings : List (Booking Account)} {k : Account} (apart : ∀ b ∈ bookings, b.account ≠ k) :
    due bookings k = 0 := by
  induction bookings with
  | nil => rfl
  | cons b rest ih =>
    rw [dueCons,if_neg (apart b List.mem_cons_self),ih fun b member => apart b (List.mem_cons_of_mem _ member)]

theorem passApart {slot : Slot} {k : Account} (apart : k.slot ≠ slot) (a : Nat) (c : Counters) :
    due (passBookings slot a c) k = 0 := by
  refine dueApart fun b member same => apart ?_
  subst same
  simp only [passBookings,List.mem_cons,List.not_mem_nil,or_false] at member
  rcases member with rfl | rfl | rfl | rfl <;> rfl

theorem finishApart {slot : Slot} {final locked : Bool} {now : UInt64} {q : Queue} {w : Work} {k : Account}
    (walked : k.field.walked = true) (apart : k.slot ≠ slot) :
    (finishTask slot final now locked q w).2.1.ledger k = q.ledger k := by
  unfold finishTask
  split
  · rfl
  split
  · rfl
  split
  · rfl
  · rw [endTaskWalked walked,passApart apart,Nat.add_zero]
    exact min_eq_left (ledgerBelow q.path k)

/- Nor do the other processes touch what a slot has counted. -/
theorem otherLedger (valid : s.Valid) {p : Process} (found : s.find pid = some p) {e : WorkerEvent} (apart : e.pid ≠ pid)
    {k : Account} (slot : k.slot = p.slot) (walked : k.field.walked = true) :
    (s.step config e).1.queue.ledger k = s.queue.ledger k := by
  obtain ⟨member,here⟩ := findMember found
  have away {r : Process} (other : s.find e.pid = some r) : k.slot ≠ r.slot := by
    obtain ⟨member',mine⟩ := findMember other
    intro same
    have one := sameSlot valid.slots member' member (same.symm.trans slot)
    exact apart (mine.symm.trans ((congrArg Process.pid one).trans here))
  have ways := stepCases config s e
  generalize s.step config e = out at ways ⊢
  cases ways with
  | idle | gone | threaded => rfl
  | started named pids slots init => exact initUnwalked init k walked
  | @processed _ r other running =>
    cases e with
    | enqueue _ purge o =>
      exact enqueueUnwalked k walked
    | recover _ now locked claims => exact recoverUnwalked _ now locked k walked
    | take _ now locked poolFound =>
      simp only [processStep,takeStep]
      split
      · rfl
      · exact takeUnwalked k walked
    | finish _ now locked =>
      simp only [processStep,finishStep]
      split
      · rfl
      split
      · exact finishApart walked (away other)
      · rfl
    | exit _ now closed =>
      change (exitWorker r.slot now closed s.queue r.work).1.ledger k = _
      unfold exitWorker
      split
      · rfl
      dsimp only
      split
      · exact finishApart walked (away other)
      · rfl
    | start _ _ _ | leave _ | thread _ _ | gone _ => rfl
    | _ =>
      simp only [processStep]
      split <;> rfl

end others

end CachePurge
