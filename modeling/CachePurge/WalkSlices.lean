import CachePurge.General.Slices
import CachePurge.WalkCoverage

/-! ngx_http_cache_purge_walk_step with its limit and its clock, for any visitor,
and the calls that follow one another until one of them does not answer NGX_AGAIN. -/
namespace CachePurge
open General

abbrev Visitor (α : Type) := Bytes → FileVisit → α → Bool × α

structure WalkCall (α : Type) where
  rc : Rc
  cursor : Cursor
  state : α
  visited : List (Bytes × FileVisit)
  reads : Nat

def walkMsec : Nat := 5

/- The test before every iteration but the first of a call. -/
def walkStop (limit : Nat) (start : UInt64) (clock : Nat → UInt64) (n : Nat) : Bool :=
  let elapsed := (clock n - start).toNat
  limit != 0 && (limit < n + 1 || (elapsed < 2^63 && walkMsec ≤ elapsed))

def Listing.size : Listing → Nat
  | .done => 1
  | .broken _ => 1
  | .entry _ _ _ sub rest => 1 + sub.size + rest.size

def Cursor.work (c : Cursor) : Nat := (c.frames.map fun frame => frame.rest.size).sum

section step
variable {α : Type} (conf : WalkConf) (tree : Tree) (visit : Visitor α)

def walkLoop : Loop (Cursor × α) (Rc × Cursor × α) (Bytes × FileVisit) where
  exit s := match s.1.frames with
    | [] => some (if s.1.scanErrors ≠ 0 then .error else .ok,s)
    | _ :: _ => none
  body s := match s.1.frames with
    | [] => (.inl s,[])
    | frame :: parents => match walkRead conf frame parents s.1 with
      | (c, .going) => (.inl (c,s.2),[])
      | (c, .visit path v) =>
        let handled := visit path v s.2
        (.inl (if handled.1 then c.scanError else c,handled.2),[(path,v)])
      | (c, .ended rc) => (.inr (rc,c,s.2),[])

def walkWork (s : Cursor × α) : Nat := s.1.work

def WalkCall.ofSlice (slice : Slice (Cursor × α) (Rc × Cursor × α) (Bytes × FileVisit)) : WalkCall α :=
  match slice.result with
  | .inl s => ⟨.again,s.1,s.2,slice.outputs,slice.turns⟩
  | .inr r => ⟨r.1,r.2.1,r.2.2,slice.outputs,slice.turns⟩

def walkStep (limit : Nat) (start : UInt64) (clock : Nat → UInt64) (c : Cursor) (a : α) : WalkCall α :=
  let begun := if c.started then (c,Turned.going) else walkStart conf tree c
  match begun.2 with
  | .ended rc => ⟨rc,begun.1,a,[],0⟩
  | _ => .ofSlice ((walkLoop conf visit).slice (walkStop limit start clock) (begun.1.work + 1) 0 (begun.1,a))

def walkCalls (limit : Nat) (starts : Nat → UInt64) (clocks : Nat → Nat → UInt64) :
    Nat → Nat → Cursor → α → WalkCall α
  | 0, _, c, a => ⟨.again,c,a,[],0⟩
  | calls + 1, k, c, a =>
    let first := walkStep conf tree visit limit (starts k) (clocks k) c a
    if first.rc = .again then
      let rest := walkCalls limit starts clocks calls (k + 1) first.cursor first.state
      {rest with visited := first.visited ++ rest.visited, reads := first.reads + rest.reads}
    else first

/- ngx_http_cache_purge_walk: one call without a limit. -/
def walkWhole (c : Cursor) (a : α) : WalkCall α := walkStep conf tree visit 0 0 (fun _ => 0) c a

end step

theorem sizePositive (listing : Listing) : 1 ≤ listing.size := by
  cases listing with
  | done => exact le_rfl
  | broken rest => exact le_rfl
  | entry name answers kind sub rest =>
    simp only [Listing.size]
    omega

theorem nameFrames {room : Option (Nat → UInt8)} {name : Bytes} {c c' : Cursor}
    (written : walkName room name c = some c') : c'.frames = c.frames ∧ c'.scanErrors = c.scanErrors := by
  unfold walkName at written
  split at written <;> try contradiction
  obtain ⟨data,_,rfl⟩ := Option.map_eq_some_iff.mp written
  exact ⟨rfl,rfl⟩

theorem closeWork {c : Cursor} {frame : Frame} {parents : List Frame} (top : c.frames = frame :: parents) :
    (walkClose c).work + frame.rest.size = c.work := by
  simp only [walkClose,Cursor.work,top,List.map_cons,List.sum_cons]
  omega

theorem entryWork {conf : WalkConf} {kind : Kind} {sub : Listing} {c c' : Cursor} {t : Turned}
    (turn : walkEntry conf kind sub c = (c',t)) (goes : ∀ rc, t ≠ .ended rc) : c'.work ≤ c.work + sub.size := by
  cases kind with
  | other =>
    cases turn
    exact Nat.le_add_right ..
  | file v =>
    simp only [walkEntry] at turn
    split at turn <;>
    · cases turn
      exact Nat.le_add_right ..
  | directory d =>
    simp only [walkEntry] at turn
    split at turn
    · cases turn
      exact Nat.le_add_right ..
    · rcases Cursor.openCases d sub c with refused | ⟨_,pushed⟩ | ⟨_,refused⟩ | ⟨_,rc,_,notAbort,same⟩
      · rw [refused] at turn
        cases turn
        exact absurd rfl (goes .abort)
      · rw [pushed] at turn
        cases turn
        simp only [Cursor.work,List.map_cons,List.sum_cons]
        omega
      · rw [refused] at turn
        cases turn
        exact Nat.le_add_right ..
      · rw [same] at turn
        cases rc <;> first | contradiction | (cases turn; exact Nat.le_add_right ..)

theorem readWork {conf : WalkConf} {frame : Frame} {parents : List Frame} {c c' : Cursor} {t : Turned}
    (top : c.frames = frame :: parents) (turn : walkRead conf frame parents c = (c',t))
    (goes : ∀ rc, t ≠ .ended rc) : c'.work < c.work := by
  have positive := sizePositive frame.rest
  unfold walkRead at turn
  cases rest : frame.rest with
  | done =>
    simp only [rest] at turn
    cases turn
    have less := closeWork top
    omega
  | broken after =>
    simp only [rest] at turn
    cases turn
    have less := closeWork (c := c.scanError) top
    have same : c.scanError.work = c.work := rfl
    omega
  | entry name answers kind sub after =>
    simp only [rest] at turn
    generalize next : ({c with frames := {frame with rest := after} :: parents} : Cursor) = c₀ at turn
    have left : c₀.work + sub.size < c.work := by
      subst next
      simp only [Cursor.work,top,List.map_cons,List.sum_cons,rest,Listing.size]
      omega
    split at turn
    · cases turn
      omega
    · split at turn
      · cases turn
        exact absurd rfl (goes .abort)
      · rename_i c₁ written
        have same : c₁.work = c₀.work := by rw [Cursor.work,(nameFrames written).1]; rfl
        split at turn
        · have more := entryWork turn goes
          omega
        · cases turn
          have counted : c₁.scanError.work = c₁.work := rfl
          omega
        · cases turn
          omega

section loop
variable {α : Type} {conf : WalkConf} {tree : Tree} {visit : Visitor α}

theorem walkDecreases : (walkLoop conf visit).Decreases walkWork := by
  intro s s' out open_ turn
  simp only [walkLoop] at open_ turn
  split at open_
  · contradiction
  · rename_i frame parents top
    simp only [top] at turn
    split at turn
    · rename_i c read
      cases turn
      exact readWork top read (by simp)
    · rename_i c path v read
      cases turn
      have less := readWork top read (by simp)
      simp only [walkWork]
      split <;> exact less
    · cases turn

theorem entryEnds {kind : Kind} {sub : Listing} {c c' : Cursor} {rc : Rc}
    (turn : walkEntry conf kind sub c = (c',.ended rc)) : rc = .abort := by
  cases kind with
  | other => cases turn
  | file v =>
    simp only [walkEntry] at turn
    split at turn <;> cases turn
  | directory d =>
    simp only [walkEntry] at turn
    split at turn
    · cases turn
    · split at turn
      · cases turn
        rfl
      · cases turn

theorem readEnds {frame : Frame} {parents : List Frame} {c c' : Cursor} {rc : Rc}
    (turn : walkRead conf frame parents c = (c',.ended rc)) : rc = .abort := by
  unfold walkRead at turn
  cases rest : frame.rest with
  | done =>
    simp only [rest] at turn
    cases turn
  | broken after =>
    simp only [rest] at turn
    cases turn
  | entry name answers kind sub after =>
    simp only [rest] at turn
    split at turn
    · cases turn
    · split at turn
      · cases turn
        rfl
      · split at turn
        · exact entryEnds turn
        · cases turn
        · cases turn

def visitAll (visit : Visitor α) : List (Bytes × FileVisit) → α → Bool × α
  | [], a => (false,a)
  | x :: rest, a =>
    let handled := visit x.1 x.2 a
    let later := visitAll visit rest handled.2
    (handled.1 || later.1,later.2)

theorem visitAllAppend (front back : List (Bytes × FileVisit)) (a : α) :
    visitAll visit (front ++ back) a = ((visitAll visit front a).1 || (visitAll visit back (visitAll visit front a).2).1,
      (visitAll visit back (visitAll visit front a).2).2) := by
  induction front generalizing a with
  | nil => simp [visitAll]
  | cons x rest ih => simp [visitAll,ih,Bool.or_assoc]

/- How far a call has come that started with todo to visit and the visitor at a. -/
structure Walked (conf : WalkConf) (visit : Visitor α) (todo : List (Bytes × FileVisit)) (a : α)
    (past : List (Bytes × FileVisit)) (s : Cursor × α) : Prop where
  valid : s.1.Valid
  running : s.1.started = true
  state : s.2 = (visitAll visit past a).2
  clean : s.1.scanErrors = 0 → todo = past ++ s.1.ahead (isProtectedPath conf) ∧ (visitAll visit past a).1 = false

structure WalkedOut (visit : Visitor α) (todo : List (Bytes × FileVisit)) (a : α)
    (past : List (Bytes × FileVisit)) (r : Rc × Cursor × α) : Prop where
  final : r.1 ≠ .again
  closed : r.2.1.frames = []
  state : r.2.2 = (visitAll visit past a).2
  judged : r.1 = .ok → r.2.1.scanErrors = 0
  clean : r.2.1.scanErrors = 0 → todo = past ∧ (visitAll visit past a).1 = false

variable {todo : List (Bytes × FileVisit)} {a : α} {past : List (Bytes × FileVisit)}

theorem walkedExit {s : Cursor × α} {r : Rc × Cursor × α} (walked : Walked conf visit todo a past s)
    (exits : (walkLoop conf visit).exit s = some r) : WalkedOut visit todo a past r := by
  simp only [walkLoop] at exits
  split at exits <;> try contradiction
  rename_i top
  cases Option.some.inj exits
  refine ⟨?_,top,walked.state,fun fine => ?_,fun zero => ?_⟩
  · simp only
    split <;> simp
  · simp only at fine
    split at fine
    · contradiction
    · rename_i none
      simpa using none
  · obtain ⟨todo',fine⟩ := walked.clean zero
    exact ⟨by simpa [Cursor.ahead,top] using todo',fine⟩

theorem walkedEnd {s : Cursor × α} {r : Rc × Cursor × α} {out : List (Bytes × FileVisit)}
    (walked : Walked conf visit todo a past s) (turn : (walkLoop conf visit).body s = (.inr r,out)) :
    WalkedOut visit todo a (past ++ out) r := by
  simp only [walkLoop] at turn
  split at turn
  · cases turn
  · rename_i frame parents top
    have moves := @Cursor.readMoves conf s.1 walked.valid walked.running frame parents top
    split at turn
    · cases turn
    · cases turn
    · rename_i c rc read
      rw [read] at moves
      cases turn
      have aborted := readEnds read
      have closed := moves.stopped rc rfl
      refine ⟨by simp [aborted],closed,by simpa using walked.state,by simp [aborted],fun zero => ?_⟩
      have before : s.1.scanErrors = 0 := Nat.le_zero.mp (moves.errors.trans (le_of_eq zero))
      obtain ⟨todo',fine⟩ := walked.clean before
      refine ⟨?_,by simpa using fine⟩
      have nothing : c.ahead (isProtectedPath conf) = [] := by
        rw [Cursor.ahead,show c.frames = [] from closed]
        rfl
      rw [todo',moves.clean zero]
      simp [Turned.visits,nothing]

theorem walkedTurn {s s' : Cursor × α} {out : List (Bytes × FileVisit)}
    (walked : Walked conf visit todo a past s) (open_ : (walkLoop conf visit).exit s = none)
    (turn : (walkLoop conf visit).body s = (.inl s',out)) : Walked conf visit todo a (past ++ out) s' := by
  simp only [walkLoop] at turn open_
  split at turn
  · rename_i top
    simp [top] at open_
  · rename_i frame parents top
    have moves := @Cursor.readMoves conf s.1 walked.valid walked.running frame parents top
    have before (zero : (walkRead conf frame parents s.1).1.scanErrors = 0) : s.1.scanErrors = 0 :=
      Nat.le_zero.mp (moves.errors.trans (le_of_eq zero))
    split at turn
    · rename_i c read
      rw [read] at moves before
      cases turn
      refine ⟨moves.valid,moves.started.trans walked.running,by simpa using walked.state,fun zero => ?_⟩
      obtain ⟨todo',fine⟩ := walked.clean (before zero)
      refine ⟨?_,by simpa using fine⟩
      rw [todo',moves.clean zero]
      simp [Turned.visits]
    · rename_i c path v read
      rw [read] at moves before
      cases turn
      have state : (visit path v s.2).2 = (visitAll visit (past ++ [(path,v)]) a).2 := by
        rw [visitAllAppend,← walked.state]
        rfl
      cases failed : (visit path v s.2).1 with
      | true =>
        simp only [if_true]
        exact ⟨⟨moves.valid.fits,moves.valid.nested,moves.valid.idle⟩,moves.started.trans walked.running,state,
          fun zero => absurd zero (Nat.succ_ne_zero _)⟩
      | false =>
        simp only [Bool.false_eq_true,if_false]
        refine ⟨moves.valid,moves.started.trans walked.running,state,fun zero => ?_⟩
        obtain ⟨todo',fine⟩ := walked.clean (before zero)
        refine ⟨?_,?_⟩
        · rw [todo',moves.clean zero]
          simp [Turned.visits]
        · rw [visitAllAppend,fine,← walked.state]
          simp [visitAll,failed]
    · cases turn

theorem walkedTrace {c : Cursor} (valid : c.Valid) (running : c.started = true) {out : List (Bytes × FileVisit)}
    {n : Nat} {result : (Cursor × α) ⊕ (Rc × Cursor × α)} (trace : (walkLoop conf visit).Trace (c,a) out n result) :
    (∀ s', result = .inl s' → Walked conf visit (c.ahead (isProtectedPath conf)) a out s') ∧
    ∀ r, result = .inr r → WalkedOut visit (c.ahead (isProtectedPath conf)) a out r := by
  have start : Walked conf visit (c.ahead (isProtectedPath conf)) a [] (c,a) :=
    ⟨valid,running,rfl,fun _ => ⟨rfl,rfl⟩⟩
  exact Loop.traceInvariant (P := Walked conf visit (c.ahead (isProtectedPath conf)) a)
    (Q := WalkedOut visit (c.ahead (isProtectedPath conf)) a)
    (fun past s r walked exits => walkedExit walked exits)
    (fun past s r out walked _ turn => walkedEnd walked turn)
    (fun past s s' out walked open_ turn => walkedTurn walked open_ turn) start trace

end loop

section calls
variable {α : Type} {conf : WalkConf} {tree : Tree} {visit : Visitor α}

def walkStops (limit : Nat) (starts : Nat → UInt64) (clocks : Nat → Nat → UInt64) (k : Nat) : Nat → Bool :=
  walkStop limit (starts k) (clocks k)

theorem stepOpened {c c' : Cursor} (idle : c.started = false) (opens : walkStart conf tree c = (c',.going))
    (running : c'.started = true) (limit : Nat) (start : UInt64) (clock : Nat → UInt64) (a : α) :
    walkStep conf tree visit limit start clock c a = walkStep conf tree visit limit start clock c' a := by
  simp [walkStep,idle,opens,running]

theorem stepRunning {c : Cursor} (running : c.started = true) (limit : Nat) (start : UInt64) (clock : Nat → UInt64)
    (a : α) : walkStep conf tree visit limit start clock c a =
      .ofSlice ((walkLoop conf visit).slice (walkStop limit start clock) (c.work + 1) 0 (c,a)) := by
  simp [walkStep,running]

theorem callsSlices (limit : Nat) (starts : Nat → UInt64) (clocks : Nat → Nat → UInt64) {calls k : Nat} {c : Cursor}
    {a : α} (valid : c.Valid) (running : c.started = true) :
    walkCalls conf tree visit limit starts clocks calls k c a =
      .ofSlice ((walkLoop conf visit).slices walkWork (walkStops limit starts clocks) calls k (c,a)) := by
  induction calls generalizing k c a with
  | zero => rfl
  | succ calls ih =>
    obtain ⟨n,_,trace⟩ := Loop.sliceTrace (l := walkLoop conf visit) (walkStop limit (starts k) (clocks k))
      (c.work + 1) 0 (c,a)
    have outcome := walkedTrace valid running trace
    unfold walkCalls Loop.slices
    rw [stepRunning running]
    generalize same : (walkLoop conf visit).slice (walkStop limit (starts k) (clocks k)) (c.work + 1) 0 (c,a) = first
      at outcome
    have same' : (walkLoop conf visit).slice (walkStops limit starts clocks k) (walkWork (c,a) + 1) 0 (c,a) = first :=
      same
    rw [same']
    obtain ⟨result,out,turns⟩ := first
    cases result with
    | inl s' =>
      have walked := outcome.1 s' rfl
      have rest := @ih (k + 1) s'.1 s'.2 walked.valid walked.running
      simp only [WalkCall.ofSlice,if_true,rest]
      generalize (walkLoop conf visit).slices walkWork (walkStops limit starts clocks) calls (k + 1) (s'.1,s'.2) = later
      obtain ⟨result',out',turns'⟩ := later
      cases result' <;> rfl
    | inr r =>
      have final := (outcome.2 r rfl).final
      simp [WalkCall.ofSlice,final]

theorem noLimit : walkStop 0 0 (fun _ => 0) = fun _ => false := by
  funext n
  simp [walkStop]

theorem openAnswers (d : DirAnswers) (listing : Listing) (c : Cursor) : (walkOpen d listing c).1 ≠ .again := by
  unfold walkOpen
  split
  · simp
  · split <;> simp

theorem startCases (conf : WalkConf) (tree : Tree) {c : Cursor} (closed : c.frames = []) :
    ((walkStart conf tree c).2 = .going ∧ (walkStart conf tree c).1.frames ≠ [] ∧
      (walkStart conf tree c).1.work = tree.listing.size ∧ (walkStart conf tree c).1.scanErrors = 0) ∨
    ∃ rc, rc ≠ .again ∧ rc ≠ .ok ∧ (walkStart conf tree c).2 = .ended rc := by
  unfold walkStart
  simp only
  generalize fresh : ({c with started := true, scanErrors := 0} : Cursor) = c₀
  have frames₀ : c₀.frames = [] := by subst fresh; exact closed
  have errors₀ : c₀.scanErrors = 0 := by subst fresh; rfl
  cases written : walkName tree.room conf.root c₀ with
  | none => exact .inr ⟨.abort,by decide,by decide,rfl⟩
  | some c₁ =>
    have frames₁ : c₁.frames = [] := (nameFrames written).1.trans frames₀
    have errors₁ : c₁.scanErrors = 0 := (nameFrames written).2.trans errors₀
    simp only
    have notAgain := openAnswers tree.dir tree.listing c₁
    rcases Cursor.openCases tree.dir tree.listing c₁ with refused | ⟨_,pushed⟩ | ⟨_,refused⟩ | ⟨_,rc,notOk,_,same⟩
    · rw [refused]
      exact .inr ⟨.abort,by decide,by decide,rfl⟩
    · rw [pushed]
      exact .inl ⟨rfl,by simp,by simp [Cursor.work,frames₁],errors₁⟩
    · rw [refused]
      exact .inr ⟨.error,by decide,by decide,rfl⟩
    · rw [same] at notAgain ⊢
      right
      refine ⟨rc,notAgain,notOk,?_⟩
      cases rc <;> first | contradiction | rfl

theorem callsMore {limit : Nat} {starts : Nat → UInt64} {clocks : Nat → Nat → UInt64} {calls k : Nat} {c : Cursor} {a : α}
    (final : (walkCalls conf tree visit limit starts clocks calls k c a).rc ≠ .again) (more : Nat) :
    walkCalls conf tree visit limit starts clocks (calls + more) k c a =
      walkCalls conf tree visit limit starts clocks calls k c a := by
  induction calls generalizing k c a with
  | zero => exact absurd rfl final
  | succ calls ih =>
    rw [Nat.succ_add]
    simp only [walkCalls] at final ⊢
    split
    · rename_i going
      rw [if_pos going] at final
      rw [ih final]
    · rfl

section idle
variable {c : Cursor} {a : α} (idle : c.started = false) (closed : c.frames = [])

include closed in
theorem idleValid : c.Valid := ⟨by simp [closed],by simp [closed],fun _ => closed⟩

include idle closed

theorem callsWhole (limit : Nat) (starts : Nat → UInt64) (clocks : Nat → Nat → UInt64) {calls k : Nat}
    (enough : tree.listing.size < calls) :
    walkCalls conf tree visit limit starts clocks calls k c a = walkWhole conf tree visit c a := by
  obtain ⟨calls,rfl⟩ := Nat.exists_eq_succ_of_ne_zero (Nat.ne_of_gt (Nat.zero_lt_of_lt enough))
  rcases startCases conf tree closed with ⟨going,_,work,_⟩ | ⟨rc,notAgain,_,ended⟩
  · have turned := startTurned conf tree (idleValid closed) idle
    generalize start : walkStart conf tree c = begun at going work turned
    obtain ⟨c',t⟩ := begun
    simp only at going work turned
    subst going
    have opened := @stepOpened α conf tree visit _ _ idle start turned.started
    have same : walkCalls conf tree visit limit starts clocks (calls + 1) k c a =
        walkCalls conf tree visit limit starts clocks (calls + 1) k c' a := by
      rw [walkCalls,walkCalls,opened]
    have ends := Loop.slicesWhole (l := walkLoop conf visit) walkDecreases (walkStops limit starts clocks)
      (k := k) (s := (c',a)) (by rw [walkWork,work]; exact enough)
    rw [same,callsSlices limit starts clocks turned.valid turned.started,ends,walkWhole,opened,
      stepRunning turned.started,noLimit]
    rfl
  · simp [walkCalls,walkWhole,walkStep,idle,ended,notAgain]

theorem callsFinal (limit : Nat) (starts : Nat → UInt64) (clocks : Nat → Nat → UInt64) {calls k : Nat}
    (final : (walkCalls conf tree visit limit starts clocks calls k c a).rc ≠ .again) :
    walkCalls conf tree visit limit starts clocks calls k c a = walkWhole conf tree visit c a := by
  have enough := @callsWhole α conf tree visit c a idle closed limit starts clocks
    (calls + (tree.listing.size + 1)) k (by omega)
  rw [← enough,callsMore final]

theorem wholeWalked : WalkedOut visit (tree.visits (isProtectedPath conf) conf.root) a
    (walkWhole conf tree visit c a).visited
    ((walkWhole conf tree visit c a).rc,(walkWhole conf tree visit c a).cursor,(walkWhole conf tree visit c a).state) := by
  have turned := startTurned conf tree (idleValid closed) idle
  have pending : c.pending conf tree = tree.visits (isProtectedPath conf) conf.root := by
    simp [Cursor.pending,idle]
  rcases startCases conf tree closed with ⟨going,_,_,errors⟩ | ⟨rc,notAgain,notOk,ended⟩
  · generalize start : walkStart conf tree c = begun at going turned errors
    obtain ⟨c',t⟩ := begun
    simp only at going turned errors
    subst going
    rw [walkWhole,stepOpened idle start turned.started,stepRunning turned.started,noLimit]
    obtain ⟨r,result,trace⟩ := Loop.wholeEnds (l := walkLoop conf visit) walkDecreases (c',a)
    have out := (walkedTrace turned.valid turned.started trace).2 r rfl
    change (Loop.slice _ _ (c'.work + 1) 0 (c',a)).result = _ at result
    change WalkedOut visit _ a ((walkLoop conf visit).slice (fun _ => false) (c'.work + 1) 0 (c',a)).outputs r at out
    simp only [WalkCall.ofSlice,result]
    refine ⟨out.final,out.closed,out.state,out.judged,fun zero => ?_⟩
    obtain ⟨todo,fine⟩ := out.clean zero
    refine ⟨?_,fine⟩
    rw [← pending,turned.clean errors]
    simpa [Turned.visits,Cursor.pending,turned.started] using todo
  · have same : walkWhole conf tree visit c a = ⟨rc,(walkStart conf tree c).1,a,[],0⟩ := by
      simp [walkWhole,walkStep,idle,ended]
    rw [same]
    have stopped := turned.stopped rc ended
    refine ⟨notAgain,stopped,rfl,fun ok => absurd ok notOk,fun zero => ⟨?_,rfl⟩⟩
    rw [← pending,turned.clean zero,ended]
    simp [Turned.visits,Cursor.pending,turned.started,Cursor.ahead,stopped]

end idle

end calls
end CachePurge
