import Mathlib.Tactic.Basic
import Mathlib.Order.Basic

/-! A loop that is run in slices. A slice may be told to stop before any iteration
but its first; running slices until one of them ends does what the loop does when
it is never told to stop. -/
namespace CachePurge.General

structure Loop (σ ρ ω : Type) where
  exit : σ → Option ρ
  body : σ → (σ ⊕ ρ) × List ω

structure Slice (σ ρ ω : Type) where
  result : σ ⊕ ρ
  outputs : List ω
  turns : Nat

namespace Loop
variable {σ ρ ω : Type} (l : Loop σ ρ ω)

def slice (stop : Nat → Bool) : Nat → Nat → σ → Slice σ ρ ω
  | 0, n, s => ⟨.inl s,[],n⟩
  | fuel + 1, n, s => match l.exit s with
    | some r => ⟨.inr r,[],n⟩
    | none =>
      if n != 0 && stop n then ⟨.inl s,[],n⟩
      else match l.body s with
        | (.inr r, out) => ⟨.inr r,out,n + 1⟩
        | (.inl s, out) =>
          let rest := slice stop fuel (n + 1) s
          {rest with outputs := out ++ rest.outputs}

/- Calls of one slice each until one ends; a call has fuel for the work that is left. -/
def slices (work : σ → Nat) (stops : Nat → Nat → Bool) : Nat → Nat → σ → Slice σ ρ ω
  | 0, _, s => ⟨.inl s,[],0⟩
  | calls + 1, k, s =>
    let first := l.slice (stops k) (work s + 1) 0 s
    match first.result with
    | .inr _ => first
    | .inl s =>
      let rest := slices work stops calls (k + 1) s
      ⟨rest.result,first.outputs ++ rest.outputs,first.turns + rest.turns⟩

def whole (work : σ → Nat) (s : σ) : Slice σ ρ ω := l.slice (fun _ => false) (work s + 1) 0 s

/- The iterations from a state to the next one to look at, or to the end. -/
inductive Trace : σ → List ω → Nat → σ ⊕ ρ → Prop where
  | here (s : σ) : Trace s [] 0 (.inl s)
  | exit {s r} (exits : l.exit s = some r) : Trace s [] 0 (.inr r)
  | last {s r out} (open_ : l.exit s = none) (turn : l.body s = (.inr r,out)) : Trace s out 1 (.inr r)
  | more {s s' out rest n result} (open_ : l.exit s = none) (turn : l.body s = (.inl s',out))
      (later : Trace s' rest n result) : Trace s (out ++ rest) (n + 1) result

/- Every iteration makes progress. -/
def Decreases (work : σ → Nat) : Prop :=
  ∀ s s' out, l.exit s = none → l.body s = (.inl s',out) → work s' < work s

variable {l} {work : σ → Nat}

theorem traceAppend {s s' : σ} {front back : List ω} {n m : Nat} {result : σ ⊕ ρ}
    (first : l.Trace s front n (.inl s')) (second : l.Trace s' back m result) :
    l.Trace s (front ++ back) (n + m) result := by
  generalize middle : (Sum.inl s' : σ ⊕ ρ) = at_ at first
  induction first with
  | here s =>
    cases middle
    simpa using second
  | exit exits => contradiction
  | last open_ turn => contradiction
  | more open_ turn later ih =>
    have rest := ih middle
    rw [List.append_assoc,Nat.add_right_comm]
    exact .more open_ turn rest

theorem traceUnique {s : σ} {out out' : List ω} {n n' : Nat} {r r' : ρ} (left : l.Trace s out n (.inr r))
    (right : l.Trace s out' n' (.inr r')) : out = out' ∧ n = n' ∧ r = r' := by
  generalize end_ : (Sum.inr r : σ ⊕ ρ) = result at left
  induction left generalizing out' n' with
  | here s => contradiction
  | exit exits =>
    cases end_
    cases right with
    | exit exits' =>
      rw [exits] at exits'
      exact ⟨rfl,rfl,Option.some.inj exits'⟩
    | last open_ turn => simp [exits] at open_
    | more open_ turn later => simp [exits] at open_
  | last open_ turn =>
    cases end_
    cases right with
    | exit exits => simp [exits] at open_
    | last _ turn' =>
      rw [turn] at turn'
      cases turn'
      exact ⟨rfl,rfl,rfl⟩
    | more _ turn' later =>
      rw [turn] at turn'
      cases turn'
  | more open_ turn later ih =>
    cases right with
    | exit exits => simp [exits] at open_
    | last _ turn' =>
      rw [turn] at turn'
      cases turn'
    | more _ turn' later' =>
      rw [turn] at turn'
      cases turn'
      obtain ⟨rfl,rfl,same⟩ := ih later' end_
      exact ⟨rfl,rfl,same⟩

theorem traceInvariant {P : List ω → σ → Prop} {Q : List ω → ρ → Prop}
    (exits : ∀ past s r, P past s → l.exit s = some r → Q past r)
    (ends : ∀ past s r out, P past s → l.exit s = none → l.body s = (.inr r,out) → Q (past ++ out) r)
    (kept : ∀ past s s' out, P past s → l.exit s = none → l.body s = (.inl s',out) → P (past ++ out) s')
    {past : List ω} {s : σ} (start : P past s) {out : List ω} {n : Nat} {result : σ ⊕ ρ}
    (trace : l.Trace s out n result) :
    (∀ s', result = .inl s' → P (past ++ out) s') ∧ ∀ r, result = .inr r → Q (past ++ out) r := by
  induction trace generalizing past with
  | here s =>
    refine ⟨fun s' same => ?_,nofun⟩
    cases same
    simpa using start
  | exit exited =>
    refine ⟨nofun,fun r same => ?_⟩
    cases same
    simpa using exits _ _ _ start exited
  | last open_ turn =>
    refine ⟨nofun,fun r same => ?_⟩
    cases same
    exact ends _ _ _ _ start open_ turn
  | more open_ turn later ih =>
    rw [← List.append_assoc]
    exact ih (kept _ _ _ _ start open_ turn)

theorem traceWork (decreases : l.Decreases work) {s s' : σ} {out : List ω} {n : Nat}
    (trace : l.Trace s out n (.inl s')) : work s' + n ≤ work s := by
  generalize middle : (Sum.inl s' : σ ⊕ ρ) = result at trace
  induction trace with
  | here s =>
    cases middle
    exact Nat.le_refl _
  | exit exits => contradiction
  | last open_ turn => contradiction
  | more open_ turn later ih =>
    have less := decreases _ _ _ open_ turn
    have rest := ih middle
    omega

theorem sliceTrace (stop : Nat → Bool) (fuel n : Nat) (s : σ) :
    ∃ k, (l.slice stop fuel n s).turns = n + k ∧
      l.Trace s (l.slice stop fuel n s).outputs k (l.slice stop fuel n s).result := by
  induction fuel generalizing n s with
  | zero => exact ⟨0,rfl,.here s⟩
  | succ fuel ih =>
    unfold slice
    cases exits : l.exit s with
    | some r => exact ⟨0,rfl,.exit exits⟩
    | none =>
      simp only
      split
      · exact ⟨0,rfl,.here s⟩
      · split
        · rename_i r out turn
          exact ⟨1,rfl,.last exits turn⟩
        · rename_i s' out turn
          obtain ⟨k,turns,trace⟩ := ih (n + 1) s'
          exact ⟨k + 1,by simp only [turns]; omega,.more exits turn trace⟩

theorem sliceStops (decreases : l.Decreases work) (stop : Nat → Bool) {fuel n : Nat} {s s' : σ}
    (enough : work s < fuel) (suspended : (l.slice stop fuel n s).result = .inl s') :
    l.exit s' = none ∧ (l.slice stop fuel n s).turns ≠ 0 ∧ stop (l.slice stop fuel n s).turns = true := by
  induction fuel generalizing n s with
  | zero => omega
  | succ fuel ih =>
    unfold slice at suspended ⊢
    cases exits : l.exit s with
    | some r => simp [exits] at suspended
    | none =>
      simp only [exits] at suspended ⊢
      split at suspended
      · rename_i stopped
        cases suspended
        simp only [stopped,if_true]
        simpa [exits] using stopped
      · rename_i running
        rw [if_neg running]
        split at suspended
        · contradiction
        · rename_i s₁ out turn
          exact ih (Nat.lt_of_lt_of_le (decreases _ _ _ exits turn) (Nat.le_of_lt_succ enough)) suspended

theorem sliceTurns (stop : Nat → Bool) {limit : Nat} (limited : ∀ n, limit ≤ n → stop n = true) (positive : 1 ≤ limit)
    (fuel n : Nat) (s : σ) (within : n ≤ limit) :
    (l.slice stop fuel n s).turns ≤ limit ∧ (l.exit s = none → n = 0 → 0 < fuel → 1 ≤ (l.slice stop fuel n s).turns) := by
  have more (fuel n : Nat) (s : σ) : n ≤ (l.slice stop fuel n s).turns := by
    obtain ⟨k,turns,_⟩ := sliceTrace (l := l) stop fuel n s
    omega
  induction fuel generalizing n s with
  | zero => exact ⟨within,fun _ _ none => absurd none (Nat.lt_irrefl 0)⟩
  | succ fuel ih =>
    unfold slice
    cases exits : l.exit s with
    | some r => exact ⟨within,by simp⟩
    | none =>
      simp only
      split
      · rename_i stopped
        refine ⟨within,fun _ zero _ => ?_⟩
        simp [zero] at stopped
      · rename_i running
        have below : n < limit := by
          by_contra full
          have full : limit ≤ n := by omega
          have nonzero : n ≠ 0 := by omega
          simp [nonzero,limited n full] at running
        split
        · exact ⟨below,fun _ _ _ => by simp⟩
        · rename_i s' out turn
          have rest := more fuel (n + 1) s'
          exact ⟨(ih (n + 1) s' below).1,fun _ _ _ => by simp only; omega⟩

theorem wholeEnds (decreases : l.Decreases work) (s : σ) :
    ∃ r, (l.whole work s).result = .inr r ∧ l.Trace s (l.whole work s).outputs (l.whole work s).turns (.inr r) := by
  obtain ⟨k,turns,trace⟩ := sliceTrace (l := l) (fun _ => false) (work s + 1) 0 s
  cases result : (l.whole work s).result with
  | inl s' =>
    have stops := sliceStops decreases (fun _ => false) (Nat.lt_add_one (work s)) result
    simp at stops
  | inr r =>
    refine ⟨r,rfl,?_⟩
    rw [Nat.zero_add] at turns
    rw [← result,whole,turns]
    exact trace

theorem slicesEnd (decreases : l.Decreases work) (stops : Nat → Nat → Bool) {calls k : Nat} {s : σ}
    (enough : work s < calls) :
    ∃ r, (l.slices work stops calls k s).result = .inr r ∧
      l.Trace s (l.slices work stops calls k s).outputs (l.slices work stops calls k s).turns (.inr r) := by
  induction calls generalizing k s with
  | zero => omega
  | succ calls ih =>
    obtain ⟨n,turns,trace⟩ := sliceTrace (l := l) (stops k) (work s + 1) 0 s
    have stopped (s' : σ) := @sliceStops σ ρ ω l work decreases (stops k) (work s + 1) 0 s s' (Nat.lt_add_one _)
    unfold slices
    generalize l.slice (stops k) (work s + 1) 0 s = first at turns trace stopped
    rw [Nat.zero_add] at turns
    obtain ⟨result,out,count⟩ := first
    simp only at turns trace stopped
    subst turns
    cases result with
    | inr r => exact ⟨r,rfl,trace⟩
    | inl s' =>
      have nonzero := (stopped s' rfl).2.1
      have less := traceWork decreases trace
      obtain ⟨r,ended,rest⟩ := @ih (k + 1) s' (by omega)
      exact ⟨r,ended,traceAppend trace rest⟩

theorem slicesWhole (decreases : l.Decreases work) (stops : Nat → Nat → Bool) {calls k : Nat} {s : σ}
    (enough : work s < calls) : l.slices work stops calls k s = l.whole work s := by
  obtain ⟨r,result,trace⟩ := slicesEnd decreases stops (k := k) enough
  obtain ⟨r',result',trace'⟩ := wholeEnds decreases s
  obtain ⟨outputs,turns,rfl⟩ := traceUnique trace trace'
  cases sliced : l.slices work stops calls k s with
  | mk a b c =>
    cases all : l.whole work s with
    | mk a' b' c' =>
      rw [sliced] at outputs turns result
      rw [all] at outputs turns result'
      simp only at outputs turns result result'
      rw [outputs,turns,result,result']

section simulation
variable {σ' ρ' ω' : Type} {l' : Loop σ' ρ' ω'} {f : σ → σ'} {g : ρ → ρ'} {h : ω → ω'}

theorem sliceMaps (exits : ∀ s, l'.exit (f s) = (l.exit s).map g)
    (turns : ∀ s, l.exit s = none → l'.body (f s) = ((l.body s).1.map f g,(l.body s).2.map h)) (stop : Nat → Bool)
    (fuel n : Nat) (s : σ) : l'.slice stop fuel n (f s) = ⟨(l.slice stop fuel n s).result.map f g,
      (l.slice stop fuel n s).outputs.map h,(l.slice stop fuel n s).turns⟩ := by
  induction fuel generalizing n s with
  | zero => rfl
  | succ fuel ih =>
    unfold slice
    rw [exits]
    cases open_ : l.exit s with
    | some r => rfl
    | none =>
      simp only [Option.map_none]
      split
      · rfl
      · rw [turns s open_]
        obtain ⟨result,out⟩ := l.body s
        cases result with
        | inr r => rfl
        | inl s' => simp only [Sum.map_inl,ih,List.map_append]

end simulation

end Loop
end CachePurge.General
