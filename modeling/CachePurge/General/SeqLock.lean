import Mathlib.Data.Nat.Bitwise
import Mathlib.Logic.Function.Basic

/-! A sequence lock: one word that is odd while its cells are being written, and readers that
read the cells between two readings of that word. Cells are read one at a time, at any time;
turns counts the changes of the word, which shows them only modulo its range. -/
namespace CachePurge.General

structure SeqLock (ι V : Type) where
  sequence : Nat
  turns : Nat
  cells : ι → V

namespace SeqLock
variable {ι V : Type}

def bump (range : Nat) (l : SeqLock ι V) : SeqLock ι V :=
  {l with sequence := (l.sequence + 1) % range, turns := l.turns + 1}

/- The word made odd, whatever it was. -/
def raise (l : SeqLock ι V) : SeqLock ι V :=
  {l with sequence := l.sequence ||| 1, turns := if l.turns % 2 = 0 then l.turns + 1 else l.turns}

def put [DecidableEq ι] (i : ι) (v : V) (l : SeqLock ι V) : SeqLock ι V :=
  {l with cells := Function.update l.cells i v}

def Counted (range : Nat) (l : SeqLock ι V) : Prop := l.sequence = l.turns % range

/- A reading under way, with the word it began with. -/
structure Attempt (ι V : Type) where
  seen : Nat
  since : Nat
  got : List (ι × V)

def look (l : SeqLock ι V) : Option (Attempt ι V) :=
  if l.sequence % 2 = 1 then none else some ⟨l.sequence,l.turns,[]⟩

def load (i : ι) (l : SeqLock ι V) (a : Attempt ι V) : Attempt ι V := {a with got := a.got ++ [(i,l.cells i)]}

structure Sound (range : Nat) (l : SeqLock ι V) (a : Attempt ι V) : Prop where
  even : a.since % 2 = 0
  seen : a.seen = a.since % range
  since : a.since ≤ l.turns
  same : l.turns = a.since → ∀ p ∈ a.got, p.2 = l.cells p.1

variable {range : Nat} {l : SeqLock ι V} {a : Attempt ι V}

theorem parity (halves : range % 2 = 0) (counted : l.Counted range) : l.sequence % 2 = l.turns % 2 := by
  rw [counted,Nat.mod_mod_of_dvd _ (Nat.dvd_of_mod_eq_zero halves)]

theorem orOne (n : Nat) : n ||| 1 = if n % 2 = 0 then n + 1 else n := by
  have low : (n ||| 1) % 2 = 1 := by
    rw [Nat.or_mod_two_eq_one]
    exact .inr rfl
  have high : (n ||| 1) / 2 = n / 2 := by
    rw [Nat.or_div_two]
    simp
  split <;> omega

theorem countedBump (counted : l.Counted range) : (l.bump range).Counted range := by
  simp only [Counted,bump] at counted ⊢
  rw [counted,Nat.mod_add_mod]

theorem countedRaise (halves : range % 2 = 0) (positive : 0 < range) (counted : l.Counted range) :
    l.raise.Counted range := by
  have same := parity halves counted
  simp only [Counted,raise] at counted ⊢
  rw [orOne,same,counted]
  split
  · rename_i even
    have below := Nat.mod_lt l.turns positive
    have parity := Nat.mod_mod_of_dvd l.turns (Nat.dvd_of_mod_eq_zero halves)
    rw [← Nat.mod_add_mod,Nat.mod_eq_of_lt (show l.turns % range + 1 < range by omega)]
  · rfl

theorem bumpOdd : (l.bump range).turns % 2 = 1 ↔ l.turns % 2 = 0 := by
  simp only [bump]
  omega

theorem raiseOdd : l.raise.turns % 2 = 1 := by
  simp only [raise]
  split <;> omega

theorem soundLook (halves : range % 2 = 0) (counted : l.Counted range) (began : l.look = some a) : Sound range l a := by
  unfold look at began
  split at began <;> try contradiction
  rename_i even
  cases Option.some.inj began
  have same := parity halves counted
  exact ⟨by show l.turns % 2 = 0; omega,counted,le_rfl,by simp⟩

theorem soundLoad {i : ι} (sound : Sound range l a) : Sound range l (l.load i a) := by
  refine ⟨sound.even,sound.seen,sound.since,fun same p member => ?_⟩
  rcases List.mem_append.mp member with before | last
  · exact sound.same same p before
  · cases List.mem_singleton.mp last
    rfl

theorem soundBump (sound : Sound range l a) : Sound range (l.bump range) a := by
  have since := sound.since
  exact ⟨sound.even,sound.seen,by simp only [bump]; omega,fun same => by simp only [bump] at same; omega⟩

theorem soundRaise (sound : Sound range l a) : Sound range l.raise a := by
  have since := sound.since
  have even := sound.even
  refine ⟨sound.even,sound.seen,?_,fun same => ?_⟩
  · simp only [raise]
    split <;> omega
  · simp only [raise] at same
    split at same <;> omega

theorem soundPut [DecidableEq ι] {i : ι} {v : V} (odd : l.turns % 2 = 1) (sound : Sound range l a) :
    Sound range (l.put i v) a := by
  have even := sound.even
  exact ⟨sound.even,sound.seen,sound.since,fun same => by
    have same : l.turns = a.since := same
    omega⟩

theorem soundAccepted (counted : l.Counted range) (sound : Sound range l a) (again : a.seen = l.sequence)
    (near : l.turns < a.since + range) : l.turns = a.since ∧ l.turns % 2 = 0 ∧ ∀ p ∈ a.got, p.2 = l.cells p.1 := by
  have since := sound.since
  rw [sound.seen,counted] at again
  have moved : l.turns = a.since := by
    have cycle := Nat.sub_mod_eq_zero_of_mod_eq again.symm
    rw [Nat.mod_eq_of_lt (by omega)] at cycle
    omega
  exact ⟨moved,moved ▸ sound.even,sound.same moved⟩

end SeqLock
end CachePurge.General
