import Mathlib.Data.List.Infix

/-! Tries in first-child/next-sibling form over an arbitrary alphabet. A node
is found by scanning a sibling list; insertion appends the missing nodes of a
path, taking each from an allocator that may refuse, and stamps the last one.
Sibling labels need not be distinct: search and insertion both use the first. -/
namespace CachePurge.General

inductive SiblingTrie (α ν : Type) where
  | null
  | node (label : α) (value : ν) (child sibling : SiblingTrie α ν)
  deriving DecidableEq, Repr

namespace SiblingTrie
variable {α ν σ β : Type} [DecidableEq α]

def find (c : α) : SiblingTrie α ν → Option (ν × SiblingTrie α ν)
  | null => none
  | node b v child sibling => if b = c then some (v,child) else find c sibling

def valueAt : List α → SiblingTrie α ν → Option ν
  | [], _ => none
  | c :: rest, t => (find c t).bind fun p => if rest.isEmpty then some p.1 else valueAt rest p.2

def trail : List α → SiblingTrie α ν → List ν
  | [], _ => []
  | c :: rest, t => match find c t with
    | none => []
    | some p => p.1 :: trail rest p.2

/- Replaces the first node labelled c, or appends one at the end of the sibling
list. The function sees the node that was found and threads the state. -/
def graft (c : α) (f : Option (ν × SiblingTrie α ν) → σ → Option (ν × SiblingTrie α ν) × σ) :
    SiblingTrie α ν → σ → Option (SiblingTrie α ν) × σ
  | null, s => match f none s with
    | (some p, s') => (some (node c p.1 p.2 null),s')
    | (none, s') => (none,s')
  | node b v child sibling, s =>
    if b = c then match f (some (v,child)) s with
      | (some p, s') => (some (node b p.1 p.2 sibling),s')
      | (none, s') => (none,s')
    else match graft c f sibling s with
      | (some sibling', s') => (some (node b v child sibling'),s')
      | (none, s') => (none,s')

def obtainNode (alloc : σ → Option (ν × σ)) (found : Option (ν × SiblingTrie α ν)) (s : σ) :
    Option ((ν × SiblingTrie α ν) × σ) :=
  match found with
  | some p => some (p,s)
  | none => (alloc s).map fun a => ((a.1,null),a.2)

def insert (alloc : σ → Option (ν × σ)) (stamp : ν → ν) :
    List α → SiblingTrie α ν → σ → Option (SiblingTrie α ν) × σ
  | [], t, s => (some t,s)
  | c :: rest, t, s => graft c (fun found s => match obtainNode alloc found s with
      | none => (none,s)
      | some (p,s) => match insert alloc stamp rest p.2 s with
        | (none, s) => (none,s)
        | (some child, s) => (some (if rest.isEmpty then stamp p.1 else p.1,child),s)) t s

theorem findNode (c b : α) (v : ν) (child sibling : SiblingTrie α ν) :
    find c (node b v child sibling) = if b = c then some (v,child) else find c sibling := rfl

@[simp] theorem valueAtNil (t : SiblingTrie α ν) : valueAt [] t = none := rfl

@[simp] theorem valueAtNull (word : List α) : valueAt word (null : SiblingTrie α ν) = none := by
  cases word <;> rfl

theorem trailSource {word : List α} {t : SiblingTrie α ν} {v : ν} :
    v ∈ trail word t ↔ ∃ front, front <+: word ∧ valueAt front t = some v := by
  induction word generalizing t with
  | nil =>
    simp only [trail,List.not_mem_nil,List.prefix_nil,false_iff]
    rintro ⟨front,rfl,h⟩
    cases h
  | cons c rest ih =>
    cases found : find c t with
    | none =>
      simp only [trail,found,List.not_mem_nil,false_iff]
      rintro ⟨front,begins,h⟩
      cases front with
      | nil => cases h
      | cons b tail =>
        obtain rfl := (List.cons_prefix_cons.mp begins).1
        simp [valueAt,found] at h
    | some p =>
      simp only [trail,found,List.mem_cons,ih]
      constructor
      · rintro (rfl | ⟨front,begins,h⟩)
        · exact ⟨[c],by simp,by simp [valueAt,found]⟩
        · refine ⟨c :: front,List.cons_prefix_cons.mpr ⟨rfl,begins⟩,?_⟩
          cases front with
          | nil => cases h
          | cons b tail => simpa [valueAt,found] using h
      · rintro ⟨front,begins,h⟩
        cases front with
        | nil => cases h
        | cons b tail =>
          obtain ⟨rfl,inner⟩ := List.cons_prefix_cons.mp begins
          cases tail with
          | nil => left; simpa [valueAt,found] using h.symm
          | cons d tail => right; exact ⟨d :: tail,inner,by simpa [valueAt,found] using h⟩

theorem graftSource {c : α} {f : Option (ν × SiblingTrie α ν) → σ → Option (ν × SiblingTrie α ν) × σ}
    {t t' : SiblingTrie α ν} {s s' : σ} (ok : graft c f t s = (some t',s')) :
    ∃ p, f (find c t) s = (some p,s') ∧ find c t' = some p ∧ ∀ b, b ≠ c → find b t' = find b t := by
  induction t generalizing t' s' with
  | null =>
    simp only [graft] at ok
    split at ok <;> cases ok
    rename_i p h
    exact ⟨p,h,by simp [findNode],fun b other => by simp [findNode,Ne.symm other]⟩
  | node b v child sibling _ ih =>
    simp only [graft] at ok
    split at ok
    · rename_i same
      subst b
      split at ok <;> cases ok
      rename_i p h
      refine ⟨p,by simpa [findNode] using h,by simp [findNode],fun b other => ?_⟩
      simp [findNode,Ne.symm other]
    · rename_i different
      split at ok <;> cases ok
      rename_i sibling' _ h
      obtain ⟨p,called,there,others⟩ := ih h
      refine ⟨p,by simpa [findNode,different] using called,by simpa [findNode,different] using there,?_⟩
      intro a other
      by_cases same : b = a
      · simp [findNode,same]
      · simpa [findNode,same] using others a other

theorem graftInvariant {P : σ → Prop} {c : α}
    {f : Option (ν × SiblingTrie α ν) → σ → Option (ν × SiblingTrie α ν) × σ}
    (kept : ∀ found s, P s → P (f found s).2) {s : σ} (start : P s) (t : SiblingTrie α ν) :
    P (graft c f t s).2 := by
  induction t with
  | null =>
    have h := kept none s start
    simp only [graft]
    split <;> simp_all
  | node b v child sibling _ ih =>
    simp only [graft]
    split
    · have h := kept (some (v,child)) s start
      split <;> simp_all
    · split <;> simp_all

theorem insertInvariant {P : σ → Prop} {alloc : σ → Option (ν × σ)} {stamp : ν → ν}
    (kept : ∀ s a, P s → alloc s = some a → P a.2) (key : List α) {s : σ} (start : P s)
    (t : SiblingTrie α ν) : P (insert alloc stamp key t s).2 := by
  induction key generalizing t s with
  | nil => exact start
  | cons c rest ih =>
    refine graftInvariant (fun found s start => ?_) start t
    cases obtained : obtainNode alloc found s with
    | none => exact start
    | some got =>
      have next : P got.2 := by
        cases found with
        | some p => cases Option.some.inj obtained; exact start
        | none =>
          obtain ⟨a,allocated,rfl⟩ := Option.map_eq_some_iff.mp obtained
          exact kept s a start allocated
      have deeper := ih next got.1.2
      simp only []
      split <;> simp_all

/- What a trie says about a word, with a default for words that end nowhere. A
fresh node reads as the default, so creating the inner nodes of a path changes
no reading. -/
def reading (r : ν → β) (d : β) (word : List α) (t : SiblingTrie α ν) : β :=
  ((valueAt word t).map r).getD d

theorem readingCons (r : ν → β) (d : β) (c : α) (rest : List α) (t : SiblingTrie α ν) :
    reading r d (c :: rest) t = ((find c t).map fun p =>
      if rest.isEmpty then r p.1 else reading r d rest p.2).getD d := by
  cases found : find c t with
  | none => simp [reading,valueAt,found]
  | some p =>
    cases rest with
    | nil => simp [reading,valueAt,found]
    | cons b tail => simp [reading,valueAt,found]

@[simp] theorem readingNull (r : ν → β) (d : β) (word : List α) :
    reading r d word (null : SiblingTrie α ν) = d := by simp [reading]

theorem insertReading {alloc : σ → Option (ν × σ)} {stamp : ν → ν} {r : ν → β} {d g : β}
    (fresh : ∀ s a, alloc s = some a → r a.1 = d) (stamped : ∀ v, r (stamp v) = g)
    {key : List α} {t t' : SiblingTrie α ν} {s s' : σ}
    (ok : insert alloc stamp key t s = (some t',s')) (word : List α) :
    reading r d word t' = if word = key ∧ key ≠ [] then g else reading r d word t := by
  induction key generalizing t t' s s' word with
  | nil => cases ok; simp
  | cons c rest ih =>
    obtain ⟨p,made,there,others⟩ := graftSource ok
    cases word with
    | nil => simp [reading]
    | cons b tail =>
      by_cases same : b = c
      · subst b
        rw [readingCons,readingCons,there]
        -- The node on the path either existed or was allocated with the default.
        split at made <;> try (cases made)
        rename_i q s₁ obtained
        have old : ((find c t).map fun p => if tail.isEmpty then r p.1 else reading r d tail p.2).getD d =
            if tail.isEmpty then r q.1 else reading r d tail q.2 := by
          cases found : find c t with
          | some p₀ =>
            simp only [obtainNode,found,Option.some.injEq,Prod.mk.injEq] at obtained
            obtain ⟨rfl,_⟩ := obtained
            simp
          | none =>
            simp only [obtainNode,found,Option.map_eq_some_iff,Prod.mk.injEq] at obtained
            obtain ⟨a,allocated,rfl,_⟩ := obtained
            cases tail <;> simp [fresh s a allocated]
        rw [old]
        split at made <;> cases made
        rename_i child _ inserted
        have deeper := ih inserted tail
        cases tail with
        | nil => cases rest <;> simp [stamped]
        | cons x tail =>
          simp only [Option.map_some,Option.getD_some,List.isEmpty_cons,Bool.false_eq_true,
            if_false,deeper]
          cases rest <;> simp
      · rw [readingCons,readingCons,others b same]
        simp [same]

/- The values of all nodes, reachable by search or not. -/
def values : SiblingTrie α ν → List ν
  | null => []
  | node _ v child sibling => v :: (values child ++ values sibling)

def found (p : Option (ν × SiblingTrie α ν)) : List ν := (p.map fun p => p.1 :: values p.2).getD []

theorem graftValues {c : α} {f : Option (ν × SiblingTrie α ν) → σ → Option (ν × SiblingTrie α ν) × σ}
    {t t' : SiblingTrie α ν} {s s' : σ} (ok : graft c f t s = (some t',s')) :
    ∃ p others, f (find c t) s = (some p,s') ∧ (values t).Perm (found (find c t) ++ others) ∧
      (values t').Perm (found (some p) ++ others) := by
  induction t generalizing t' s' with
  | null =>
    simp only [graft] at ok
    split at ok <;> cases ok
    rename_i p called
    exact ⟨p,[],called,.refl _,.refl _⟩
  | node b v child sibling _ ih =>
    simp only [graft] at ok
    split at ok
    · rename_i same
      subst b
      split at ok <;> cases ok
      rename_i p called
      exact ⟨p,values sibling,by simpa [findNode] using called,by simp [values,found,findNode],by simp [values,found]⟩
    · rename_i different
      split at ok <;> cases ok
      rename_i sibling' _ h
      obtain ⟨p,others,called,before,after⟩ := ih h
      refine ⟨p,v :: (values child ++ others),by simpa [findNode,different] using called,?_,?_⟩
      · rw [findNode,if_neg different]
        exact (List.Perm.cons v (before.append_left (values child))).trans
          (List.perm_append_comm_assoc (v :: values child) _ others)
      · exact (List.Perm.cons v (after.append_left (values child))).trans
          (List.perm_append_comm_assoc (v :: values child) _ others)

def Chains (alloc : σ → Option (ν × σ)) (r : ν → β) (chain : σ → List β) : Prop :=
  ∀ s a, alloc s = some a → chain a.2 = r a.1 :: chain s

theorem insertValues {alloc : σ → Option (ν × σ)} {stamp : ν → ν} {r : ν → β} {chain : σ → List β}
    (chains : Chains alloc r chain) (stamped : ∀ v, r (stamp v) = r v) {key : List α} {t t' : SiblingTrie α ν}
    {s s' : σ} (ok : insert alloc stamp key t s = (some t',s')) :
    ∃ new, chain s' = new ++ chain s ∧ ((values t').map r).Perm (new ++ (values t).map r) := by
  induction key generalizing t t' s s' with
  | nil =>
    cases ok
    exact ⟨[],rfl,.refl _⟩
  | cons c rest ih =>
    obtain ⟨p,others,made,before,after⟩ := graftValues ok
    split at made <;> try (cases made)
    rename_i q s₁ obtained
    split at made <;> cases made
    rename_i child _ inserted
    obtain ⟨new,chained,deeper⟩ := ih inserted
    have same : r (if rest.isEmpty = true then stamp q.1 else q.1) = r q.1 := by
      split
      · exact stamped q.1
      · rfl
    have grown : ((values t').map r).Perm (r q.1 :: (new ++ (values q.2).map r) ++ others.map r) := by
      refine (after.map r).trans ?_
      simp only [found,Option.map_some,Option.getD_some,List.map_append,List.map_cons,same]
      exact List.Perm.append_right _ (deeper.cons _)
    have old := before.map r
    rw [List.map_append] at old
    cases there : find c t with
    | some p₀ =>
      simp only [obtainNode,there,Option.some.injEq,Prod.mk.injEq] at obtained
      obtain ⟨rfl,rfl⟩ := obtained
      refine ⟨new,chained,grown.trans ?_⟩
      rw [there] at old
      simp only [found,Option.map_some,Option.getD_some,List.map_cons,List.cons_append] at old
      rw [List.cons_append,List.append_assoc]
      exact List.perm_middle.symm.trans (old.symm.append_left new)
    | none =>
      simp only [obtainNode,there,Option.map_eq_some_iff,Prod.mk.injEq] at obtained
      obtain ⟨a,allocated,rfl,rfl⟩ := obtained
      refine ⟨new ++ [r a.1],by rw [chained,chains s a allocated,List.append_assoc]; rfl,grown.trans ?_⟩
      rw [there] at old
      simp only [found,Option.map_none,Option.getD_none,List.map_nil,List.nil_append] at old
      simp only [values,List.map_nil,List.append_nil]
      exact List.Perm.append (List.perm_append_singleton _ new).symm old.symm

theorem graftState {c : α} {f : Option (ν × SiblingTrie α ν) → σ → Option (ν × SiblingTrie α ν) × σ}
    (t : SiblingTrie α ν) (s : σ) : (graft c f t s).2 = (f (find c t) s).2 := by
  induction t with
  | null =>
    simp only [graft,find]
    split <;> simp_all
  | node b v child sibling _ ih =>
    simp only [graft,findNode]
    split
    · split <;> simp_all
    · split <;> simp_all

theorem insertPresent {alloc : σ → Option (ν × σ)} {stamp : ν → ν} {key : List α} {t : SiblingTrie α ν}
    (present : (valueAt key t).isSome) (s : σ) : (insert alloc stamp key t s).2 = s := by
  induction key generalizing t s with
  | nil => contradiction
  | cons c rest ih =>
    rw [insert,graftState]
    cases there : find c t with
    | none => simp [valueAt,there] at present
    | some p =>
      have deeper : (insert alloc stamp rest p.2 s).2 = s := by
        cases rest with
        | nil => rfl
        | cons d rest =>
          refine ih ?_ s
          simpa [valueAt,there] using present
      simp only [obtainNode]
      split <;> simp_all

theorem graftRecorded {τ : Type} {view : τ → σ} {c : α}
    {f : Option (ν × SiblingTrie α ν) → σ → Option (ν × SiblingTrie α ν) × σ}
    {f' : Option (ν × SiblingTrie α ν) → τ → Option (ν × SiblingTrie α ν) × τ}
    (same : ∀ p s, ((f' p s).1,view (f' p s).2) = f p (view s)) (t : SiblingTrie α ν) (s : τ) :
    ((graft c f' t s).1,view (graft c f' t s).2) = graft c f t (view s) := by
  induction t with
  | null =>
    simp only [graft,← same none s]
    obtain ⟨_ | p,s'⟩ := f' none s <;> rfl
  | node b v child sibling _ ih =>
    simp only [graft]
    split
    · rw [← same (some (v,child)) s]
      obtain ⟨_ | p,s'⟩ := f' (some (v,child)) s <;> rfl
    · rw [← ih]
      obtain ⟨_ | t',s'⟩ := graft c f' sibling s <;> rfl

theorem insertRecorded {τ : Type} {alloc : σ → Option (ν × σ)} {alloc' : τ → Option (ν × τ)} {view : τ → σ}
    {stamp : ν → ν} (same : ∀ s, (alloc' s).map (fun a => (a.1,view a.2)) = alloc (view s)) (key : List α)
    (t : SiblingTrie α ν) (s : τ) :
    ((insert alloc' stamp key t s).1,view (insert alloc' stamp key t s).2) = insert alloc stamp key t (view s) := by
  induction key generalizing t s with
  | nil => rfl
  | cons c rest ih =>
    refine graftRecorded (fun p s => ?_) t s
    cases p with
    | some p =>
      simp only [obtainNode]
      rw [← ih p.2 s]
      obtain ⟨_ | child,s'⟩ := insert alloc' stamp rest p.2 s <;> rfl
    | none =>
      simp only [obtainNode]
      rw [← same s]
      cases granted : alloc' s with
      | none => rfl
      | some a =>
        simp only [Option.map_some]
        rw [← ih null a.2]
        obtain ⟨_ | child,s'⟩ := insert alloc' stamp rest null a.2 <;> rfl

end SiblingTrie
end CachePurge.General
