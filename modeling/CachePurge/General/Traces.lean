import CachePurge.General.Machine

/-! Lists of transitions with their outputs. A transition relation says what can
happen at once; a trace is any number of them. What every transition keeps over
the history a trace keeps, and so does a machine whose steps are traces; what
holds of each output at the moment it is emitted holds of every output of a run,
against the outputs before it. -/
namespace CachePurge.General
variable {σ ε ω : Type}

inductive Trace (R : σ → List ω → σ → Prop) : σ → List ω → σ → Prop where
  | done {s} : Trace R s [] s
  | more {s s₁ s₂ out out'} (turn : R s out s₁) (rest : Trace R s₁ out' s₂) :
      Trace R s (out ++ out') s₂

def Witnessed (Q : List ω → ω → Prop) (past out : List ω) : Prop :=
  ∀ front o back, out = front ++ o :: back → Q (past ++ front) o

theorem witnessedNil {Q : List ω → ω → Prop} (past : List ω) : Witnessed Q past [] := by
  intro front o back split
  simp at split

theorem witnessedSingle {Q : List ω → ω → Prop} {past : List ω} {o : ω} (holds : Q past o) :
    Witnessed Q past [o] := by
  intro front o' back split
  cases front with
  | nil =>
    cases split
    simpa using holds
  | cons head rest => simp at split

theorem witnessedAppend {Q : List ω → ω → Prop} {past out out' : List ω} (left : Witnessed Q past out)
    (right : Witnessed Q (past ++ out) out') : Witnessed Q past (out ++ out') := by
  intro front o back split
  rcases List.append_eq_append_iff.mp split with ⟨between,rfl,rest⟩ | ⟨between,rfl,rest⟩
  · rw [← List.append_assoc]
    exact right between o back rest
  · cases between with
    | nil =>
      simp only [List.append_nil] at right ⊢
      simpa using right [] o back (by simpa using rest.symm)
    | cons head tail =>
      cases rest
      exact left front o tail rfl

/- The last value that a history gives. -/
def newest {β : Type} (give : ω → Option β) (past : List ω) : Option β := (past.filterMap give).getLast?

section newest
variable {β : Type} {give : ω → Option β} {past out : List ω}

theorem newestQuiet (quiet : ∀ o ∈ out, give o = none) : newest give (past ++ out) = newest give past := by
  rw [newest,List.filterMap_append,List.filterMap_eq_nil_iff.mpr quiet,List.append_nil]
  rfl

theorem newestNow {o : ω} {b : β} (given : give o = some b) : newest give (past ++ [o]) = some b := by
  rw [newest,List.filterMap_append]
  simp [given]

end newest

namespace Trace
variable {R : σ → List ω → σ → Prop}

theorem once {s s' : σ} {out : List ω} (turn : R s out s') : Trace R s out s' := by
  have h := more turn .done
  rwa [List.append_nil] at h

theorem trans {s s₁ s₂ : σ} {out out' : List ω} (left : Trace R s out s₁) (right : Trace R s₁ out' s₂) :
    Trace R s (out ++ out') s₂ := by
  induction left with
  | done => exact right
  | more turn _ ih =>
    rw [List.append_assoc]
    exact more turn (ih right)

theorem keeps {P : List ω → σ → Prop} (kept : ∀ past s out s', P past s → R s out s' → P (past ++ out) s')
    {s s' : σ} {out : List ω} (trace : Trace R s out s') (past : List ω) (start : P past s) :
    P (past ++ out) s' := by
  induction trace generalizing past with
  | done => simpa using start
  | more turn _ ih =>
    rw [← List.append_assoc]
    exact ih _ (kept _ _ _ _ start turn)

theorem witnessed {P : List ω → σ → Prop} {Q : List ω → ω → Prop}
    (kept : ∀ past s out s', P past s → R s out s' → P (past ++ out) s')
    (emitted : ∀ past s out s', P past s → R s out s' → Witnessed Q past out)
    {s s' : σ} {out : List ω} (trace : Trace R s out s') (past : List ω) (start : P past s) :
    Witnessed Q past out := by
  induction trace generalizing past with
  | done => exact witnessedNil past
  | more turn _ ih => exact witnessedAppend (emitted _ _ _ _ start turn) (ih _ (kept _ _ _ _ start turn))

end Trace

namespace Machine
variable (m : Machine σ ε ω)

theorem witnessed {P : List ω → σ → Prop} {Q : List ω → ω → Prop} {s : σ} {past : List ω}
    (start : P past s)
    (extended : ∀ past s e, P past s → P (past ++ (m.step s e).2) (m.step s e).1 ∧
      Witnessed Q past (m.step s e).2) (events : List ε) : Witnessed Q past (m.outputs s events) := by
  induction events generalizing s past with
  | nil => exact witnessedNil past
  | cons e rest ih =>
    obtain ⟨kept,emitted⟩ := extended past s e start
    exact witnessedAppend emitted (ih kept)

end Machine
end CachePurge.General
