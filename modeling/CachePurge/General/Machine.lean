import Mathlib.Tactic.Basic

/-! Deterministic machines driven by a list of events. Every choice of the
environment is part of the event, so a theorem about all event lists is a
theorem about all interleavings; a disabled event leaves the state alone. The
outputs of a run are its history, oldest first. -/
namespace CachePurge.General

structure Machine (σ ε ω : Type) where
  step : σ → ε → σ × List ω

namespace Machine
variable {σ ε ω : Type} (m : Machine σ ε ω)

def after : σ → List ε → σ
  | s, [] => s
  | s, e :: rest => after (m.step s e).1 rest

def outputs : σ → List ε → List ω
  | _, [] => []
  | s, e :: rest => (m.step s e).2 ++ outputs (m.step s e).1 rest

@[simp] theorem afterNil (s : σ) : m.after s [] = s := rfl

@[simp] theorem afterCons (s : σ) (e : ε) (rest : List ε) :
    m.after s (e :: rest) = m.after (m.step s e).1 rest := rfl

@[simp] theorem outputsNil (s : σ) : m.outputs s [] = [] := rfl

@[simp] theorem outputsCons (s : σ) (e : ε) (rest : List ε) :
    m.outputs s (e :: rest) = (m.step s e).2 ++ m.outputs (m.step s e).1 rest := rfl

theorem afterAppend (s : σ) (front back : List ε) :
    m.after s (front ++ back) = m.after (m.after s front) back := by
  induction front generalizing s with
  | nil => rfl
  | cons e rest ih => exact ih _

theorem afterLast (s : σ) (events : List ε) (e : ε) :
    m.after s (events ++ [e]) = (m.step (m.after s events) e).1 := m.afterAppend s events [e]

theorem outputsAppend (s : σ) (front back : List ε) :
    m.outputs s (front ++ back) = m.outputs s front ++ m.outputs (m.after s front) back := by
  induction front generalizing s with
  | nil => rfl
  | cons e rest ih => simp only [List.cons_append,outputsCons,afterCons,ih,List.append_assoc]

theorem emittedAt {s : σ} {events : List ε} {o : ω} (emitted : o ∈ m.outputs s events) :
    ∃ front e rest, events = front ++ e :: rest ∧ o ∈ (m.step (m.after s front) e).2 := by
  induction events generalizing s with
  | nil => simp at emitted
  | cons e rest ih =>
    rcases List.mem_append.mp emitted with now | later
    · exact ⟨[],e,rest,rfl,now⟩
    · obtain ⟨front,e',rest',same,here⟩ := ih later
      exact ⟨e :: front,e',rest',by rw [same]; rfl,here⟩

/- The same machine with other outputs: what is seen at each step. -/
def watch {ν : Type} (see : σ → ε → List ν) : Machine σ ε ν := ⟨fun s e => ((m.step s e).1,see s e)⟩

@[simp] theorem watchAfter {ν : Type} (see : σ → ε → List ν) (s : σ) (events : List ε) :
    (m.watch see).after s events = m.after s events := by
  induction events generalizing s with
  | nil => rfl
  | cons e rest ih => exact ih _

theorem tracksFrom {P : List ω → σ → Prop} {s : σ} {past : List ω} (start : P past s)
    (extended : ∀ past s e, P past s → P (past ++ (m.step s e).2) (m.step s e).1) (events : List ε) :
    P (past ++ m.outputs s events) (m.after s events) := by
  induction events generalizing s past with
  | nil => simpa using start
  | cons e rest ih =>
    have next := ih (extended past s e start)
    rwa [List.append_assoc] at next

theorem tracks {P : List ω → σ → Prop} {s : σ} (start : P [] s)
    (extended : ∀ past s e, P past s → P (past ++ (m.step s e).2) (m.step s e).1) (events : List ε) :
    P (m.outputs s events) (m.after s events) := m.tracksFrom start extended events

theorem invariant {P : σ → Prop} (preserved : ∀ s e, P s → P (m.step s e).1)
    {s : σ} (start : P s) (events : List ε) : P (m.after s events) := by
  induction events generalizing s with
  | nil => exact start
  | cons e rest ih => exact ih (preserved s e start)

theorem invariantWhile {A : ε → Prop} {P : σ → Prop} (preserved : ∀ s e, A e → P s → P (m.step s e).1)
    {s : σ} (start : P s) {events : List ε} (all : ∀ e ∈ events, A e) : P (m.after s events) := by
  induction events generalizing s with
  | nil => exact start
  | cons e rest ih =>
    exact ih (preserved s e (all e List.mem_cons_self) start) fun e' later => all e' (List.mem_cons_of_mem _ later)

theorem tracksWhile {A : ε → Prop} {P : List ω → σ → Prop} {s : σ} {past : List ω} (start : P past s)
    (extended : ∀ past s e, A e → P past s → P (past ++ (m.step s e).2) (m.step s e).1) {events : List ε}
    (all : ∀ e ∈ events, A e) : P (past ++ m.outputs s events) (m.after s events) := by
  induction events generalizing s past with
  | nil => simpa using start
  | cons e rest ih =>
    have next := ih (extended past s e (all e List.mem_cons_self) start)
      fun e' later => all e' (List.mem_cons_of_mem _ later)
    rwa [List.append_assoc] at next

def along (A : σ → ε → Bool) : σ → List ε → Bool
  | _, [] => true
  | s, e :: rest => A s e && along A (m.step s e).1 rest

theorem alongTrue (s : σ) (events : List ε) : m.along (fun _ _ => true) s events = true := by
  induction events generalizing s with
  | nil => rfl
  | cons e rest ih => exact ih _

theorem alongAppend (A : σ → ε → Bool) (s : σ) (front back : List ε) :
    m.along A s (front ++ back) = (m.along A s front && m.along A (m.after s front) back) := by
  induction front generalizing s with
  | nil => rfl
  | cons e rest ih => simp only [List.cons_append,along,afterCons,ih,Bool.and_assoc]

theorem tracksAlong {A : σ → ε → Bool} {P : List ω → σ → Prop} {s : σ} {past : List ω} (start : P past s)
    (extended : ∀ past s e, A s e = true → P past s → P (past ++ (m.step s e).2) (m.step s e).1) {events : List ε}
    (met : m.along A s events = true) : P (past ++ m.outputs s events) (m.after s events) := by
  induction events generalizing s past with
  | nil => simpa using start
  | cons e rest ih =>
    obtain ⟨first,later⟩ := Bool.and_eq_true_iff.mp met
    have next := ih (extended past s e first start) later
    rwa [List.append_assoc] at next

theorem later {P : σ → Prop} {R : σ → σ → Prop} (preserved : ∀ s e, P s → P (m.step s e).1)
    (refl : ∀ s, R s s) (trans : ∀ {a b c}, R a b → R b c → R a c)
    (related : ∀ s e, P s → R s (m.step s e).1)
    {s : σ} (start : P s) (events : List ε) : R s (m.after s events) := by
  induction events generalizing s with
  | nil => exact refl s
  | cons e rest ih => exact trans (related s e start) (ih (preserved s e start))

theorem history {P : σ → Prop} {Q : ω → σ → Prop} (preserved : ∀ s e, P s → P (m.step s e).1)
    (emitted : ∀ s e, P s → ∀ o ∈ (m.step s e).2, Q o (m.step s e).1)
    (stable : ∀ s e o, P s → Q o s → Q o (m.step s e).1)
    {s : σ} (start : P s) (events : List ε) : ∀ o ∈ m.outputs s events, Q o (m.after s events) := by
  induction events generalizing s with
  | nil => simp
  | cons e rest ih =>
    intro o member
    rcases List.mem_append.mp member with now | next
    · have kept : ∀ t e, P t ∧ Q o t → P (m.step t e).1 ∧ Q o (m.step t e).1 :=
        fun t e h => ⟨preserved t e h.1,stable t e o h.1 h.2⟩
      exact (m.invariant kept ⟨preserved s e start,emitted s e start o now⟩ rest).2
    · exact ih (preserved s e start) o next

theorem everyOutput {P : σ → Prop} {Q : ω → Prop} (preserved : ∀ s e, P s → P (m.step s e).1)
    (emitted : ∀ s e, P s → ∀ o ∈ (m.step s e).2, Q o)
    {s : σ} (start : P s) (events : List ε) : ∀ o ∈ m.outputs s events, Q o :=
  m.history (Q := fun o _ => Q o) preserved emitted (fun _ _ _ _ h => h) start events

/- One machine inside another: each event of the outer machine is an event of the
inner one or leaves it alone. -/
structure Projects {τ ε' ω' : Type} (m' : Machine τ ε' ω') (view : σ → τ) (inner : ε → Option ε')
    (seen : ω → Option ω') : Prop where
  kept : ∀ s e, inner e = none → view (m.step s e).1 = view s ∧ (m.step s e).2.filterMap seen = []
  moved : ∀ s e e', inner e = some e' → view (m.step s e).1 = (m'.step (view s) e').1 ∧
    (m.step s e).2.filterMap seen = (m'.step (view s) e').2

theorem projected {τ ε' ω' : Type} {m' : Machine τ ε' ω'} {view : σ → τ} {inner : ε → Option ε'}
    {seen : ω → Option ω'} (projects : m.Projects m' view inner seen) (s : σ) (events : List ε) :
    view (m.after s events) = m'.after (view s) (events.filterMap inner) ∧
    (m.outputs s events).filterMap seen = m'.outputs (view s) (events.filterMap inner) := by
  induction events generalizing s with
  | nil => exact ⟨rfl,rfl⟩
  | cons e rest ih =>
    obtain ⟨state,outputs⟩ := ih (m.step s e).1
    cases event : inner e with
    | none =>
      obtain ⟨same,silent⟩ := projects.kept s e event
      simp only [afterCons,outputsCons,List.filterMap_append,List.filterMap_cons,event,silent,same] at state outputs ⊢
      exact ⟨state,outputs⟩
    | some e' =>
      obtain ⟨next,said⟩ := projects.moved s e e' event
      simp only [afterCons,outputsCons,List.filterMap_append,List.filterMap_cons,event,said,next] at state outputs ⊢
      exact ⟨state,by rw [outputs]⟩

end Machine
end CachePurge.General
