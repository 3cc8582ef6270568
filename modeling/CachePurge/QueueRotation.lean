import CachePurge.General.Rounds
import CachePurge.WorkerSteps

/-! Two loops turn a list over while they scan it, at most 64 entries a time: the
selection of a ready task among delayed retries, and the recovery of tasks whose
worker is gone. Neither drops nor repeats an entry, and repeated from the state it
left each of them reaches every entry. -/
namespace CachePurge
open General

/- The counter and the list of waiting tasks agree, as they do in a valid queue. -/
structure Queue.Listed (q : Queue) : Prop where
  size : q.size = q.pending.length
  cells : ∀ t ∈ q.pending, (q.items t).isSome

theorem validListed {q : Queue} (valid : q.Valid) : q.Listed :=
  ⟨valid.size,fun t waits => (valid.cells t).mpr (.inl waits)⟩

theorem turnedListed {q : Queue} (listed : q.Listed) {pending : List TaskId} (perm : pending.Perm q.pending) :
    ({q with pending := pending} : Queue).Listed :=
  ⟨listed.size.trans perm.length_eq.symm,fun t waits => listed.cells t (perm.mem_iff.mp waits)⟩

def Queue.isReady (q : Queue) (now : UInt64) (t : TaskId) : Bool := (q.items t).any (Item.ready now)

section selection
variable {items : TaskId → Option Item} {now : UInt64}

theorem selectSkips (skipped back : List TaskId) (n : Nat)
    (delayed : ∀ t ∈ skipped, (items t).any (Item.ready now) = false) :
    selectReady items now (skipped.length + n) (skipped ++ back) =
      selectReady items now n (back ++ skipped) := by
  induction skipped generalizing back with
  | nil => simp
  | cons t rest ih =>
    have late := delayed t List.mem_cons_self
    have step : selectReady items now ((t :: rest).length + n) (t :: rest ++ back) =
        selectReady items now (rest.length + n) (rest ++ (back ++ [t])) := by
      have count : (t :: rest).length + n = rest.length + n + 1 := by rw [List.length_cons]; omega
      rw [count,List.cons_append,selectReady,late]
      simp
    rw [step,ih (back ++ [t]) fun u member => delayed u (List.mem_cons_of_mem t member)]
    simp

theorem selectFinds {skipped back : List TaskId} {t : TaskId} {n : Nat} (short : skipped.length < n)
    (delayed : ∀ u ∈ skipped, (items u).any (Item.ready now) = false)
    (due : (items t).any (Item.ready now) = true) :
    selectReady items now n (skipped ++ t :: back) = (some t,back ++ skipped) := by
  obtain ⟨more,rfl⟩ : ∃ more, n = skipped.length + (more + 1) := ⟨n - skipped.length - 1,by omega⟩
  rw [selectSkips skipped (t :: back) (more + 1) delayed,List.cons_append,selectReady,if_pos due]

theorem selectRotates {pending : List TaskId} {n : Nat} (short : n ≤ pending.length)
    (delayed : ∀ t ∈ pending.take n, (items t).any (Item.ready now) = false) :
    selectReady items now n pending = (none,pending.drop n ++ pending.take n) := by
  have skipped := selectSkips (pending.take n) (pending.drop n) 0 delayed
  rw [List.take_append_drop,List.length_take,Nat.min_eq_left short] at skipped
  exact skipped

theorem firstOf {α : Type} (test : α → Bool) (xs : List α) :
    (∀ x ∈ xs, test x = false) ∨
    ∃ front x back, xs = front ++ x :: back ∧ (∀ y ∈ front, test y = false) ∧ test x = true := by
  induction xs with
  | nil => exact .inl (by simp)
  | cons x rest ih =>
    cases here : test x with
    | true => exact .inr ⟨[],x,rest,rfl,by simp,here⟩
    | false =>
      rcases ih with none_ | ⟨front,y,back,split_,before,passes⟩
      · exact .inl (by simpa [here] using none_)
      · exact .inr ⟨x :: front,y,back,by rw [split_,List.cons_append],by simpa [here] using before,passes⟩

end selection

section attempts
variable (names : Nat → Name) (namespaces : List Nat) (pid : Pid) (slot : Slot)

def attempt (now : UInt64) (poolFound : Bool) (q : Queue) (w : Work) : Option Rc × Queue × Work :=
  takeTask names namespaces pid slot false now true poolFound q w

def afterAttempts (times : Nat → UInt64) (pools : Nat → Bool) : Nat → Queue × Work → Queue × Work
  | 0, s => s
  | k + 1, s =>
    let before := afterAttempts times pools k s
    if before.2.item.isSome then before
    else (attempt names namespaces pid slot (times k) (pools k) before.1 before.2).2

/- What one attempt does: it starts a task and puts the delayed ones before it
behind the others, or it turns the entries over that it looked at. -/
inductive Selection (now : UInt64) (q : Queue) (w : Work) (outcome : Option Rc × Queue × Work) : Prop
  | starts (skipped : List TaskId) (t : TaskId) (back : List TaskId) (item : Item)
      (listed : q.pending = skipped ++ t :: back) (within : skipped.length < walkEntries)
      (delayed : ∀ u ∈ skipped, q.isReady now u = false) (here : q.items t = some item)
      (ready : item.ready now = true) (goesOn : outcome.1 = none) (holds : outcome.2.2.item = some t)
      (pending : outcome.2.1.pending = back ++ skipped) (active : outcome.2.1.active = q.active ++ [t])
      (size : outcome.2.1.size + 1 = q.size) (running : outcome.2.1.running = q.running + 1)
      (items : outcome.2.1.items = Function.update q.items t (some (item.start ⟨pid,slot,q.epochs slot⟩)))
  | rotates (delayed : ∀ u ∈ q.pending.take walkEntries, q.isReady now u = false)
      (same : outcome = (some (if q.pending.isEmpty then .ok else .busy),
        {q with pending := q.pending.drop walkEntries ++ q.pending.take walkEntries},w))

variable {names namespaces pid slot} {now : UInt64} {poolFound : Bool} {q : Queue} {w : Work}

theorem taken {xs skipped back : List TaskId} {t : TaskId} (split_ : xs = skipped ++ t :: back) :
    xs.Perm (t :: (back ++ skipped)) := by
  rw [split_]
  exact List.perm_middle.trans (List.Perm.cons t List.perm_append_comm)

theorem attemptSelects (listed : q.Listed) :
    Selection pid slot now q w (attempt names namespaces pid slot now poolFound q w) := by
  have bound : min q.size walkEntries ≤ q.pending.length := by rw [listed.size]; exact Nat.min_le_left _ _
  have looked : q.pending.take (min q.size walkEntries) = q.pending.take walkEntries := by
    rw [listed.size,Nat.min_comm,← List.take_eq_take_min]
  have left : q.pending.drop (min q.size walkEntries) = q.pending.drop walkEntries := by
    rw [listed.size,Nat.min_comm,← List.drop_eq_drop_min]
  unfold attempt takeTask
  simp only [Bool.false_eq_true,if_false,Bool.not_true]
  rcases firstOf (q.isReady now) (q.pending.take walkEntries) with delayed | ⟨skipped,t,rest,cut,delayed,due⟩
  · refine .rotates delayed ?_
    have turned := selectRotates bound (by rw [looked]; exact delayed)
    rw [turned,looked,left]
    cases empty : q.pending.isEmpty with
    | true =>
      have none_ : q.pending = [] := List.isEmpty_iff.mp empty
      simp [none_]
      rw [← none_]
    | false => simp
  · have within : skipped.length < walkEntries := by
      have long := congrArg List.length cut
      rw [List.length_append,List.length_cons,List.length_take] at long
      omega
    have split_ : q.pending = skipped ++ t :: (rest ++ q.pending.drop walkEntries) := by
      rw [← List.cons_append,← List.append_assoc,← cut,List.take_append_drop]
    have short : skipped.length < min q.size walkEntries := by
      have long := congrArg List.length split_
      rw [List.length_append,List.length_cons] at long
      rw [listed.size]
      omega
    obtain ⟨item,here⟩ := Option.isSome_iff_exists.mp (listed.cells t (by rw [split_]; simp))
    have found : selectReady q.items now (min q.size walkEntries) q.pending =
        (some t,rest ++ q.pending.drop walkEntries ++ skipped) := by
      nth_rewrite 1 [split_]
      exact selectFinds short delayed due
    have some_ : q.pending.isEmpty = false := by rw [split_]; cases skipped <;> rfl
    have change : Change q (.start t ⟨pid,slot,q.epochs slot⟩)
        (startTask pid slot t item (rest ++ q.pending.drop walkEntries ++ skipped) q) :=
      startTaskChange here (taken split_)
    cases change with
    | start _ there _ active size running items _ =>
    cases Option.some.inj (here.symm.trans there)
    rw [found,some_]
    simp only [Bool.false_eq_true,if_false,here]
    refine .starts skipped t _ item split_ within delayed here (by simpa [Queue.isReady,here] using due) rfl
      beginHolds startTaskPending active ?_ running items
    have counted := congrArg List.length split_
    rw [List.length_append,List.length_cons,← listed.size] at counted
    dsimp only at size ⊢
    omega

theorem dropTakePerm (xs : List TaskId) (n : Nat) : (xs.drop n ++ xs.take n).Perm xs := by
  have whole := @List.perm_append_comm _ (xs.drop n) (xs.take n)
  rwa [List.take_append_drop] at whole

theorem selectionKeeps {outcome : Option Rc × Queue × Work} (selected : Selection pid slot now q w outcome) :
    (outcome.2.1.pending ++ outcome.2.1.active).Perm (q.pending ++ q.active) := by
  cases selected with
  | starts skipped t back item listed _ _ _ _ _ _ pending active _ _ _ =>
    rw [pending,active,← List.append_assoc]
    refine (List.perm_append_singleton t _).trans ?_
    rw [← List.cons_append]
    exact (taken listed).symm.append_right q.active
  | rotates _ same =>
    rw [same]
    exact (dropTakePerm q.pending walkEntries).append_right q.active
section waiting
variable {times : Nat → UInt64} {pools : Nat → Bool}

theorem attemptNext {k : Nat} {q' : Queue}
    (before : afterAttempts names namespaces pid slot times pools k (q,w) = (q',w)) (free : w.item = none) :
    afterAttempts names namespaces pid slot times pools (k + 1) (q,w) =
      (attempt names namespaces pid slot (times k) (pools k) q' w).2 := by
  rw [afterAttempts,before]
  simp [free]

theorem idleEarlier {k : Nat} {s : Queue × Work}
    (idle : (afterAttempts names namespaces pid slot times pools (k + 1) s).2.item = none) :
    (afterAttempts names namespaces pid slot times pools k s).2.item = none := by
  cases before : (afterAttempts names namespaces pid slot times pools k s).2.item with
  | none => rfl
  | some t =>
    rw [afterAttempts] at idle
    simp [before] at idle

theorem attemptsTurn (listed : q.Listed) (free : w.item = none) (k : Nat)
    (idle : (afterAttempts names namespaces pid slot times pools k (q,w)).2.item = none) :
    ∃ pending, pending.Perm q.pending ∧
      afterAttempts names namespaces pid slot times pools k (q,w) = ({q with pending := pending},w) := by
  induction k with
  | zero => exact ⟨q.pending,.refl _,rfl⟩
  | succ k ih =>
    obtain ⟨pending,perm,before⟩ := ih (idleEarlier idle)
    have next := attemptNext before free
    rw [next] at idle ⊢
    have selected := @attemptSelects names namespaces pid slot (times k) (pools k) _ w (turnedListed listed perm)
    cases selected with
    | starts _ _ _ _ _ _ _ _ _ _ holds => rw [holds] at idle; contradiction
    | rotates _ same => exact ⟨_,(dropTakePerm pending walkEntries).trans perm,by rw [same]⟩

theorem nextSelects (listed : q.Listed) (free : w.item = none) {k : Nat}
    (idle : (afterAttempts names namespaces pid slot times pools k (q,w)).2.item = none) :
    ∃ pending outcome, pending.Perm q.pending ∧
      afterAttempts names namespaces pid slot times pools k (q,w) = ({q with pending := pending},w) ∧
      afterAttempts names namespaces pid slot times pools (k + 1) (q,w) = outcome.2 ∧
      Selection pid slot (times k) {q with pending := pending} w outcome := by
  obtain ⟨pending,perm,same⟩ := attemptsTurn listed free k idle
  exact ⟨pending,_,perm,same,attemptNext same free,attemptSelects (turnedListed listed perm)⟩

theorem heldStarted (listed : q.Listed) (free : w.item = none) (k : Nat)
    (held : (afterAttempts names namespaces pid slot times pools k (q,w)).2.item ≠ none) :
    ∃ j, j < k ∧ (afterAttempts names namespaces pid slot times pools j (q,w)).2.item = none ∧
      ∃ u ∈ q.pending, q.isReady (times j) u = true ∧
        (afterAttempts names namespaces pid slot times pools (j + 1) (q,w)).2.item = some u := by
  induction k with
  | zero => exact absurd free held
  | succ k ih =>
    cases before : (afterAttempts names namespaces pid slot times pools k (q,w)).2.item with
    | some t =>
      obtain ⟨j,less,started⟩ := ih (by rw [before]; exact Option.some_ne_none t)
      exact ⟨j,by omega,started⟩
    | none =>
      obtain ⟨pending,_,perm,_,next,selected⟩ := nextSelects listed free before
      cases selected with
      | starts skipped u back item split_ _ _ here ready _ holds =>
        have here : q.items u = some item := here
        have split_ : pending = skipped ++ u :: back := split_
        exact ⟨k,Nat.lt_succ_self k,before,u,perm.mem_iff.mp (by simp [split_]),
          by simpa [Queue.isReady,here] using ready,by rw [next,holds]⟩
      | rotates _ stays =>
        rw [next,stays] at held
        exact absurd free held

theorem attemptReaches (listed : q.Listed) (free : w.item = none) {t : TaskId} {k : Nat}
    (ready : q.isReady (times k) t = true)
    (near : t ∈ (afterAttempts names namespaces pid slot times pools k (q,w)).1.pending.take walkEntries) :
    (afterAttempts names namespaces pid slot times pools (k + 1) (q,w)).2.item ≠ none := by
  intro idle
  obtain ⟨pending,_,_,same,next,selected⟩ := nextSelects listed free (idleEarlier idle)
  rw [same] at near
  rw [next] at idle
  cases selected with
  | starts _ _ _ _ _ _ _ _ _ _ holds => rw [holds] at idle; contradiction
  | rotates delayed _ =>
    have late : q.isReady (times k) t = false := delayed t near
    exact absurd ready (by simp [late])

theorem attemptRound (listed : q.Listed) (free : w.item = none) (k : Nat)
    (idle : (afterAttempts names namespaces pid slot times pools (k + 1) (q,w)).2.item = none) :
    ∃ kept, (afterAttempts names namespaces pid slot times pools (k + 1) (q,w)).1.pending =
      (afterAttempts names namespaces pid slot times pools k (q,w)).1.pending.drop walkEntries ++ kept := by
  obtain ⟨pending,_,_,same,next,selected⟩ := nextSelects listed free (idleEarlier idle)
  rw [next] at idle ⊢
  cases selected with
  | starts _ _ _ _ _ _ _ _ _ _ holds => rw [holds] at idle; contradiction
  | rotates _ stays => exact ⟨_,by rw [stays,same]⟩

theorem readyStarts (listed : q.Listed) (free : w.item = none) {t : TaskId} (waits : t ∈ q.pending)
    (ready : ∀ k, k < (q.pending.length + (walkEntries - 1)) / walkEntries → q.isReady (times k) t = true) :
    ∃ k, k < (q.pending.length + (walkEntries - 1)) / walkEntries ∧
      (afterAttempts names namespaces pid slot times pools k (q,w)).2.item = none ∧
      ∃ u ∈ q.pending, q.isReady (times k) u = true ∧
        (afterAttempts names namespaces pid slot times pools (k + 1) (q,w)).2.item = some u := by
  have near (k : Nat) (front : t ∈
      (afterAttempts names namespaces pid slot times pools k (q,w)).1.pending.take walkEntries) :
      q.isReady (times k) t = true →
        (afterAttempts names namespaces pid slot times pools (k + 1) (q,w)).2.item ≠ none :=
    fun due => attemptReaches listed free due front
  have far (k : Nat) (still : ¬ (q.isReady (times k) t = true →
      (afterAttempts names namespaces pid slot times pools (k + 1) (q,w)).2.item ≠ none)) :=
    attemptRound listed free k (by_contra fun held => still fun _ => held)
  obtain ⟨k,few,served⟩ := servedWithin (by decide : 0 < walkEntries) near far waits
  obtain ⟨j,less,started⟩ := heldStarted listed free (k + 1) (served (ready k few))
  exact ⟨j,Nat.lt_of_le_of_lt (Nat.lt_succ_iff.mp less) few,started⟩

/- An attempt that gets the lock starts the first ready task among the first 64
and puts the delayed ones before it behind the others, or it turns those entries
over; it drops and repeats no task; and while some task stays ready, so many
attempts as it takes to look at the whole list start a ready one. -/
theorem selectionTurns (names : Nat → Name) (namespaces : List Nat) (pid : Pid) (slot : Slot) (q : Queue)
    (w : Work) (listed : q.Listed) (free : w.item = none) :
    (∀ now poolFound,
      Selection pid slot now q w (attempt names namespaces pid slot now poolFound q w) ∧
      let q' := (attempt names namespaces pid slot now poolFound q w).2.1
      (q'.pending ++ q'.active).Perm (q.pending ++ q.active)) ∧
    ∀ times pools, ∀ t ∈ q.pending, let rounds := (q.pending.length + (walkEntries - 1)) / walkEntries
      (∀ k, k < rounds → q.isReady (times k) t = true) →
      ∃ k, k < rounds ∧ (afterAttempts names namespaces pid slot times pools k (q,w)).2.item = none ∧
        ∃ u ∈ q.pending, q.isReady (times k) u = true ∧
          (afterAttempts names namespaces pid slot times pools (k + 1) (q,w)).2.item = some u :=
  ⟨fun _ _ => ⟨attemptSelects listed,selectionKeeps (attemptSelects listed)⟩,
    fun _ _ _ waits => readyStarts listed free waits⟩

end waiting

end attempts

def turningQueue : Queue := {queueInit 8 [(1,[97])] with
  pending := [1,2]
  active := [3,4]
  size := 2
  running := 2
  owners := fun slot => if slot = 1 then 9 else 0
  items := fun t =>
    if t = 1 then some {Item.zeroed with path := 1, retryAt := 500}
    else if t = 2 then some {Item.zeroed with path := 1}
    else if t = 3 then some {Item.zeroed with path := 1, running := true, owner := 8, ownerSlot := 1}
    else if t = 4 then some {Item.zeroed with path := 1, running := true, owner := 9, ownerSlot := 1}
    else none}

def turningNames (_ : Nat) : Name := ⟨[97],by decide,by decide,by decide⟩

theorem turningListed : turningQueue.Listed := ⟨rfl,by decide⟩

theorem selectionTurnsTwo : ∃ k, k < 1 ∧
    (afterAttempts turningNames [] 7 0 (fun _ => 100) (fun _ => false) k
      (turningQueue,.idle false)).2.item = none ∧
    ∃ u ∈ [1,2], turningQueue.isReady 100 u = true ∧
      (afterAttempts turningNames [] 7 0 (fun _ => 100) (fun _ => false) (k + 1)
        (turningQueue,.idle false)).2.item = some u :=
  (selectionTurns turningNames [] 7 0 turningQueue (.idle false) turningListed rfl).2
    (fun _ => 100) (fun _ => false) 2 (by decide) fun _ _ => by decide

section recovery
variable (slot : Option Slot) (alive : Pid → Bool) (now : UInt64)

structure Queue.Held (q : Queue) : Prop where
  running : q.running = q.active.length
  nodup : (q.pending ++ q.active).Nodup
  cells : ∀ t ∈ q.active, (q.items t).isSome

theorem validHeld {q : Queue} (valid : q.Valid) : q.Held :=
  ⟨valid.running,valid.nodup,fun t holds => (valid.cells t).mpr (.inr holds)⟩

def Queue.abandoned (q : Queue) (alive : Pid → Bool) (t : TaskId) : Bool :=
  (q.items t).any fun item => !ownerAlive alive q item

def recoverInspects : Nat → Queue → List (Option TaskId)
  | 0, _ => []
  | n + 1, q => q.active.head? :: recoverInspects n (recoverOne slot alive now q).1

structure Recovered (front back : List TaskId) (q q' : Queue) : Prop where
  pending : q'.pending = q.pending ++ front.filter (q.abandoned alive)
  active : q'.active = back ++ front.filter fun t => !q.abandoned alive t
  requeued : ∀ t ∈ front, q.abandoned alive t = true → q'.items t = (q.items t).map (Item.requeue now)
  others : ∀ t, ¬ (t ∈ front ∧ q.abandoned alive t = true) → q'.items t = q.items t
  total : q'.size + q'.running = q.size + q.running
  running : q'.running = q'.active.length
  owners : q'.owners = q.owners
  epochs : q'.epochs = q.epochs

variable {slot alive now} {q : Queue} {t : TaskId}

theorem abandonedSame {q' : Queue} (items : q'.items t = q.items t) (owners : q'.owners = q.owners)
    (epochs : q'.epochs = q.epochs) : q'.abandoned alive t = q.abandoned alive t := by
  unfold Queue.abandoned ownerAlive
  rw [items,owners,epochs]

theorem recoverOneTurns {rest : List TaskId} (held : q.Held) (listed : q.active = t :: rest) :
    Recovered alive now [t] rest q (recoverOne slot alive now q).1 := by
  obtain ⟨item,here⟩ := Option.isSome_iff_exists.mp (held.cells t (by simp [listed]))
  have counted : q.running = rest.length + 1 := by rw [held.running,listed,List.length_cons]
  have verdict : q.abandoned alive t = !ownerAlive alive q item := by simp [Queue.abandoned,here]
  unfold recoverOne
  rw [listed]
  simp only [here]
  cases live : ownerAlive alive q item with
  | true =>
    rw [live] at verdict
    simp only [if_true]
    exact ⟨by simp [verdict],by simp [verdict],by simp [verdict],fun _ _ => rfl,rfl,by simp [counted],rfl,rfl⟩
  | false =>
    rw [live] at verdict
    simp only [Bool.false_eq_true,if_false]
    refine ⟨by simp [verdict,Queue.modify],by simp [verdict,Queue.modify],?_,?_,?_,?_,by simp [Queue.modify],
      by simp [Queue.modify]⟩
    · intro u member _
      cases List.mem_singleton.mp member
      simp [Queue.modify,here]
    · intro u other
      have apart : u ≠ t := by rintro rfl; exact other ⟨List.mem_cons_self,verdict⟩
      simp [Queue.modify,apart]
    · simp only [statAddFields,pushPendingFields,Queue.modify]
      omega
    · simp [Queue.modify,counted]

theorem recoveredPerm {q' : Queue} {front back : List TaskId} (listed : q.active = front ++ back)
    (done : Recovered alive now front back q q') :
    (q'.pending ++ q'.active).Perm (q.pending ++ q.active) := by
  have parts := List.filter_append_perm (q.abandoned alive) front
  rw [done.pending,done.active,listed,List.append_assoc]
  refine List.Perm.append_left q.pending ?_
  have swapped := @List.perm_append_comm _ back (front.filter fun t => !q.abandoned alive t)
  refine (List.Perm.append_left _ swapped).trans ?_
  rw [← List.append_assoc]
  exact parts.append_right back

theorem recoveredFrom {q' : Queue} {front back : List TaskId} (listed : q.active = front ++ back)
    (done : Recovered alive now front back q q') (active : t ∈ q'.active) : t ∈ q.active := by
  rw [done.active] at active
  rw [listed]
  rcases List.mem_append.mp active with later | kept
  · exact List.mem_append_right front later
  · exact List.mem_append_left back (List.mem_filter.mp kept).1

theorem recoveredHeld {q' : Queue} {front back : List TaskId} (held : q.Held) (listed : q.active = front ++ back)
    (done : Recovered alive now front back q q') : q'.Held := by
  refine ⟨done.running,(recoveredPerm listed done).nodup_iff.mpr held.nodup,fun t active => ?_⟩
  have cell := held.cells t (recoveredFrom listed done active)
  by_cases lost : t ∈ front ∧ q.abandoned alive t = true
  · rw [done.requeued t lost.1 lost.2,Option.isSome_map]
    exact cell
  · rw [done.others t lost]
    exact cell

theorem recoveredAppend {q₁ q₂ : Queue} {t : TaskId} {front back : List TaskId} (apart : t ∉ front)
    (first : Recovered alive now [t] (front ++ back) q q₁)
    (rest : Recovered alive now front (back ++ [t].filter fun t => !q.abandoned alive t) q₁ q₂) :
    Recovered alive now (t :: front) back q q₂ := by
  have same (u : TaskId) (member : u ∈ front) : q₁.abandoned alive u = q.abandoned alive u := by
    have other : u ≠ t := by rintro rfl; exact apart member
    exact abandonedSame (first.others u (by simp [other])) first.owners first.epochs
  have lost : front.filter (q₁.abandoned alive) = front.filter (q.abandoned alive) := List.filter_congr same
  have kept : (front.filter fun t => !q₁.abandoned alive t) = front.filter fun t => !q.abandoned alive t :=
    List.filter_congr fun u member => by rw [same u member]
  refine ⟨?_,?_,?_,?_,rest.total.trans first.total,rest.running,rest.owners.trans first.owners,
    rest.epochs.trans first.epochs⟩
  · rw [rest.pending,first.pending,lost,List.append_assoc,← List.filter_append,List.singleton_append]
  · rw [rest.active,kept,List.append_assoc,← List.filter_append,List.singleton_append]
  · intro u member gone
    rcases List.mem_cons.mp member with rfl | later
    · rw [rest.others u fun inside => apart inside.1,first.requeued u List.mem_cons_self gone]
    · have other : u ≠ t := by rintro rfl; exact apart later
      rw [rest.requeued u later (by rw [same u later,gone]),first.others u (by simp [other])]
  · intro u outside
    have one : ¬ (u ∈ [t] ∧ q.abandoned alive u = true) := fun here =>
      outside ⟨List.mem_cons.mpr (.inl (List.mem_singleton.mp here.1)),here.2⟩
    have others : ¬ (u ∈ front ∧ q₁.abandoned alive u = true) := fun here =>
      outside ⟨List.mem_cons_of_mem t here.1,by rw [← same u here.1]; exact here.2⟩
    rw [rest.others u others,first.others u one]

theorem recoverLoopTurns {front back : List TaskId} (held : q.Held) (listed : q.active = front ++ back) :
    recoverInspects slot alive now front.length q = front.map some ∧
    Recovered alive now front back q (recoverLoop slot alive now front.length q).1 := by
  induction front generalizing q back with
  | nil =>
    refine ⟨rfl,?_⟩
    exact ⟨by simp [recoverLoop],by simp [recoverLoop,listed],by simp,fun _ _ => rfl,rfl,held.running,rfl,rfl⟩
  | cons t front ih =>
    have one : Recovered alive now [t] (front ++ back) q (recoverOne slot alive now q).1 :=
      recoverOneTurns held (by rw [listed,List.cons_append])
    have next := recoveredHeld held (by rw [listed,List.cons_append,List.singleton_append]) one
    have apart : t ∉ front := by
      have distinct := (List.nodup_append.mp held.nodup).2.1
      rw [listed,List.cons_append] at distinct
      exact fun member => (List.nodup_cons.mp distinct).1 (List.mem_append_left back member)
    obtain ⟨heads,rest⟩ := ih next (by rw [one.active,List.append_assoc])
    refine ⟨?_,recoveredAppend apart one rest⟩
    rw [List.length_cons,recoverInspects,heads,listed]
    rfl

theorem recoverInspected (held : q.Held) :
    recoverInspects slot alive now (min q.running walkEntries) q = (q.active.take walkEntries).map some ∧
    Recovered alive now (q.active.take walkEntries) (q.active.drop walkEntries) q
      (recover slot alive now true q).1 := by
  have loop := @recoverLoopTurns slot alive now q _ _ held (List.take_append_drop walkEntries q.active).symm
  have bound : (q.active.take walkEntries).length = min q.running walkEntries := by
    rw [List.length_take,held.running,Nat.min_comm]
  rw [bound] at loop
  exact loop

theorem recoveredActive {q' : Queue} {front back : List TaskId} (held : q.Held) (listed : q.active = front ++ back)
    (done : Recovered alive now front back q q') (active : t ∈ q'.active) :
    t ∈ q.active ∧ q'.items t = q.items t ∧ ¬ (t ∈ front ∧ q.abandoned alive t = true) := by
  have distinct := (recoveredHeld held listed done).nodup
  have spared : ¬ (t ∈ front ∧ q.abandoned alive t = true) := by
    intro lost
    have waits : t ∈ q'.pending := by
      rw [done.pending]
      exact List.mem_append_right q.pending (List.mem_filter.mpr lost)
    exact (List.nodup_append.mp distinct).2.2 t waits t active rfl
  exact ⟨recoveredFrom listed done active,done.others t spared,spared⟩

section calls
variable (slot) (alives : Nat → Pid → Bool) (times : Nat → UInt64)

def afterRecoveries : Nat → Queue → Queue
  | 0, q => q
  | k + 1, q => (recover slot (alives k) (times k) true (afterRecoveries k q)).1

structure Recoveries (q q' : Queue) : Prop where
  held : q'.Held
  owners : q'.owners = q.owners
  epochs : q'.epochs = q.epochs
  tasks : (q'.pending ++ q'.active).Perm (q.pending ++ q.active)
  spared : ∀ t ∈ q'.active, q'.items t = q.items t

variable {slot alives times}

theorem recoveriesKeep (held : q.Held) (k : Nat) : Recoveries q (afterRecoveries slot alives times k q) := by
  induction k with
  | zero => exact ⟨held,rfl,rfl,.refl _,fun _ _ => rfl⟩
  | succ k ih =>
    have done := (@recoverInspected slot (alives k) (times k) _ ih.held).2
    have cut := (List.take_append_drop walkEntries (afterRecoveries slot alives times k q).active).symm
    refine ⟨recoveredHeld ih.held cut done,done.owners.trans ih.owners,done.epochs.trans ih.epochs,
      (recoveredPerm cut done).trans ih.tasks,fun t active => ?_⟩
    obtain ⟨before,same,_⟩ := recoveredActive ih.held cut done active
    exact same.trans (ih.spared t before)

theorem abandonedRequeued (held : q.Held) (active : t ∈ q.active)
    (lost : ∀ k, k < (q.active.length + (walkEntries - 1)) / walkEntries → q.abandoned (alives k) t = true) :
    let q' := afterRecoveries slot alives times ((q.active.length + (walkEntries - 1)) / walkEntries) q
    t ∈ q'.pending ∧ t ∉ q'.active := by
  have kept (k : Nat) : Recoveries q (afterRecoveries slot alives times k q) := recoveriesKeep held k
  have done (k : Nat) := (@recoverInspected slot (alives k) (times k) _ (kept k).held).2
  have cut (k : Nat) := (List.take_append_drop walkEntries (afterRecoveries slot alives times k q).active).symm
  have near (k : Nat) (front : t ∈ (afterRecoveries slot alives times k q).active.take walkEntries) :
      q.abandoned (alives k) t = true → t ∉ (afterRecoveries slot alives times (k + 1) q).active := by
    intro gone still
    have inside := List.mem_of_mem_take front
    have same := @abandonedSame (alives k) _ t _ ((kept k).spared t inside) (kept k).owners (kept k).epochs
    exact (recoveredActive (kept k).held (cut k) (done k) still).2.2 ⟨front,by rw [same,gone]⟩
  have far (k : Nat) (_ : ¬ (q.abandoned (alives k) t = true →
      t ∉ (afterRecoveries slot alives times (k + 1) q).active)) :
      ∃ back, (afterRecoveries slot alives times (k + 1) q).active =
        (afterRecoveries slot alives times k q).active.drop walkEntries ++ back := ⟨_,(done k).active⟩
  obtain ⟨k,few,served⟩ := servedWithin (by decide : 0 < walkEntries) near far active
  have gone : ∀ n, t ∉ (afterRecoveries slot alives times (k + 1 + n) q).active := by
    intro n
    induction n with
    | zero => exact served (lost k few)
    | succ n ih => exact fun still => ih (recoveredActive (kept _).held (cut _) (done (k + 1 + n)) still).1
  obtain ⟨n,rounds⟩ := Nat.exists_eq_add_of_le (Nat.succ_le_of_lt few)
  have away := gone n
  rw [← rounds] at away
  refine ⟨?_,away⟩
  have whole := (kept ((q.active.length + (walkEntries - 1)) / walkEntries)).tasks.mem_iff.mpr
    (List.mem_append_right q.pending active)
  exact (List.mem_append.mp whole).resolve_right away

end calls

/- A recovery that gets the lock looks once at each of the first 64 active tasks
and never at the sentinel; it requeues those of them that are abandoned, and turns
the others over; and so many calls as it takes to look at the whole list requeue
every task that stays abandoned. -/
theorem recoveryTurns (slot : Option Slot) (q : Queue) (held : q.Held) :
    (∀ alive now, let front := q.active.take walkEntries
      recoverInspects slot alive now (min q.running walkEntries) q = front.map some ∧ front.Nodup ∧
      Recovered alive now front (q.active.drop walkEntries) q (recover slot alive now true q).1) ∧
    (∀ now (item : Item), let item' := item.requeue now
      item'.running = false ∧ item'.owner = 0 ∧ item'.rerun = false ∧ item'.nextProtection = none ∧
      item'.protection = item.nextProtection.getD item.protection) ∧
    ∀ alives times, ∀ t ∈ q.active, let calls := (q.active.length + (walkEntries - 1)) / walkEntries
      (∀ k, k < calls → q.abandoned (alives k) t = true) →
      t ∈ (afterRecoveries slot alives times calls q).pending ∧
      t ∉ (afterRecoveries slot alives times calls q).active := by
  refine ⟨fun alive now => ?_,fun now item => ?_,fun _ _ _ active lost => abandonedRequeued held active lost⟩
  · obtain ⟨heads,done⟩ := @recoverInspected slot alive now q held
    exact ⟨heads,((List.nodup_append.mp held.nodup).2.1.sublist (List.take_sublist _ _)),done⟩
  · unfold Item.requeue
    cases item.nextProtection <;> simp

end recovery

theorem turningHeld : turningQueue.Held := ⟨rfl,by decide,by decide⟩

theorem recoveryTurnsTwo : recoverInspects none (fun _ => true) 0 2 turningQueue = [some 3,some 4] ∧
    3 ∈ (afterRecoveries none (fun _ _ => true) (fun _ => 0) 1 turningQueue).pending :=
  ⟨((recoveryTurns none turningQueue turningHeld).1 (fun _ => true) 0).1,
    ((recoveryTurns none turningQueue turningHeld).2.2 (fun _ _ => true) (fun _ => 0) 3 (by decide)
      fun _ _ => by decide).1⟩

section reached
variable {config : Config} {maxSize : Nat} {paths : List (Nat × Bytes)} {epochs : Nat → Epoch} {events : List WorkerEvent}
  {t : TaskId}

theorem reachedStarts (names : Nat → Name) (namespaces : List Nat) (pid : Pid) (slot : Slot) (times : Nat → UInt64)
    (pools : Nat → Bool) {w : Work} (free : w.item = none) :
    let q := ((systemMachine config).after (systemInit maxSize paths epochs) events).queue
    let rounds := (q.pending.length + (walkEntries - 1)) / walkEntries
    t ∈ q.pending → (∀ k, k < rounds → q.isReady (times k) t = true) →
    ∃ k, k < rounds ∧ (afterAttempts names namespaces pid slot times pools k (q,w)).2.item = none ∧
      ∃ u ∈ q.pending, q.isReady (times k) u = true ∧
        (afterAttempts names namespaces pid slot times pools (k + 1) (q,w)).2.item = some u :=
  fun waits ready =>
    readyStarts (validListed (runKeepsValid (initSystemValid maxSize paths epochs) events).queue) free waits ready

theorem reachedRequeues (slot : Option Slot) (alives : Nat → Pid → Bool) (times : Nat → UInt64) :
    let q := ((systemMachine config).after (systemInit maxSize paths epochs) events).queue
    let calls := (q.active.length + (walkEntries - 1)) / walkEntries
    t ∈ q.active → (∀ k, k < calls → q.abandoned (alives k) t = true) →
    t ∈ (afterRecoveries slot alives times calls q).pending ∧ t ∉ (afterRecoveries slot alives times calls q).active :=
  fun active lost =>
    abandonedRequeued (validHeld (runKeepsValid (initSystemValid maxSize paths epochs) events).queue) active lost

end reached

end CachePurge
