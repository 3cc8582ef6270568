import Mathlib.Data.List.Infix

/-! Texts in sections, each from an opening to a terminator. A reader ends a section
at the first terminator it meets. A writer can put any text into sections: it cuts
every terminator of the text in two, and ends a section between the halves. Where no
proper part of the terminator both begins and ends it, the reader finds the sections
that the writer made, and no other. -/
namespace CachePurge.General

structure Terminator (α : Type) where
  left : List α
  right : List α
  leftNonempty : left ≠ []
  rightNonempty : right ≠ []
  unbordered : ∀ u v, left ++ right = u ++ v → u ≠ [] → v ≠ [] → ¬ v <+: left ++ right

variable {α : Type}

namespace Terminator

def text (t : Terminator α) : List α := t.left ++ t.right

def Clean (t : Terminator α) (content : List α) : Prop := ¬ t.text <:+: content

theorem textPositive (t : Terminator α) : 0 < t.text.length := by
  rw [text,List.length_append]
  exact Nat.add_pos_left (List.length_pos_iff.mpr t.leftNonempty) _

theorem apart (t : Terminator α) {u v back : List α} (cut : t.text = u ++ v) (front : u ≠ [])
    (some_ : v ≠ []) : ¬ v <+: t.text ++ back := by
  intro begins
  have shorter : v.length ≤ t.text.length := by rw [cut,List.length_append]; omega
  exact t.unbordered u v cut front some_ (List.prefix_of_prefix_length_le begins (List.prefix_append _ back) shorter)

end Terminator

section reader
variable [DecidableEq α]

/- Up to the first terminator, and what follows it. -/
def upTo (stop : List α) : List α → Option (List α × List α)
  | [] => none
  | a :: rest =>
    if stop <+: a :: rest then some ([],(a :: rest).drop stop.length)
    else (upTo stop rest).map fun cut => (a :: cut.1,cut.2)

def readSection (opening stop s : List α) : Option (List α × List α) :=
  if opening <+: s then upTo stop (s.drop opening.length) else none

/- What a reader makes of a text section by section, with the text it leaves. -/
inductive Sections (opening stop : List α) : List α → List (List α) → List α → Prop where
  | nil (s) : Sections opening stop s [] s
  | cons {s content rest contents tail} (read : readSection opening stop s = some (content,rest))
      (more : Sections opening stop rest contents tail) : Sections opening stop s (content :: contents) tail

theorem sectionsUnique {opening stop s tail tail' : List α} {contents contents' : List (List α)}
    (left : Sections opening stop s contents tail) (right : Sections opening stop s contents' tail')
    (over_ : readSection opening stop tail = none) (over' : readSection opening stop tail' = none) :
    contents = contents' ∧ tail = tail' := by
  induction left generalizing contents' with
  | nil s =>
    cases right with
    | nil => exact ⟨rfl,rfl⟩
    | cons read _ =>
      rw [over_] at read
      contradiction
  | cons read _ ih =>
    cases right with
    | nil =>
      rw [over'] at read
      contradiction
    | cons read' more' =>
      cases Option.some.inj (read.symm.trans read')
      obtain ⟨contents,tail⟩ := ih more' over_
      exact ⟨by rw [contents],tail⟩

theorem upToShorter {stop s content rest : List α} (cut : upTo stop s = some (content,rest)) :
    rest.length ≤ s.length ∧ (∀ a ∈ content, a ∈ s) ∧ ∀ a ∈ rest, a ∈ s := by
  induction s generalizing content rest with
  | nil => contradiction
  | cons a s ih =>
    rw [upTo] at cut
    split at cut
    · cases Option.some.inj cut
      exact ⟨by rw [List.length_drop]; omega,by simp,fun b member => List.mem_of_mem_drop member⟩
    · obtain ⟨later,found,same⟩ := Option.map_eq_some_iff.mp cut
      cases same
      obtain ⟨short,inner,outer⟩ := ih found
      refine ⟨by rw [List.length_cons]; omega,fun b member => ?_,fun b member => List.mem_cons_of_mem a (outer b member)⟩
      rcases List.mem_cons.mp member with rfl | member
      · exact List.mem_cons_self
      · exact List.mem_cons_of_mem a (inner b member)

theorem readSectionShorter {opening stop s content rest : List α}
    (read : readSection opening stop s = some (content,rest)) :
    rest.length + opening.length ≤ s.length ∧ (∀ a ∈ content, a ∈ s) ∧ ∀ a ∈ rest, a ∈ s := by
  unfold readSection at read
  split at read
  · rename_i begins
    obtain ⟨short,inner,outer⟩ := upToShorter read
    have room := begins.length_le
    rw [List.length_drop] at short
    exact ⟨by omega,fun a member => List.mem_of_mem_drop (inner a member),
      fun a member => List.mem_of_mem_drop (outer a member)⟩
  · contradiction

theorem sectionsShorter {opening stop s tail : List α} {contents : List (List α)} (some_ : 0 < opening.length)
    (read : Sections opening stop s contents tail) : tail.length + contents.length ≤ s.length := by
  induction read with
  | nil s => simp
  | cons read _ ih =>
    have short := (readSectionShorter read).1
    rw [List.length_cons]
    omega

theorem cleanReads (t : Terminator α) {content : List α} (clean : t.Clean content) (back : List α) :
    upTo t.text (content ++ (t.text ++ back)) = some (content,back) := by
  induction content with
  | nil =>
    cases written : t.text with
    | nil =>
      have some_ := t.textPositive
      rw [written] at some_
      contradiction
    | cons a rest =>
      rw [List.nil_append,List.cons_append,upTo,← List.cons_append,if_pos (List.prefix_append _ _),List.drop_left]
  | cons a content ih =>
    have later : t.Clean content := fun inside => clean (inside.trans (List.suffix_cons a content).isInfix)
    have other : ¬ t.text <+: a :: content ++ (t.text ++ back) := by
      intro begins
      rcases Nat.le_total t.text.length (a :: content).length with short | long
      · exact clean (List.prefix_of_prefix_length_le begins (List.prefix_append _ _) short).isInfix
      · obtain ⟨v,cut⟩ := List.prefix_of_prefix_length_le (List.prefix_append _ _) begins long
        have some_ : v ≠ [] := by
          rintro rfl
          rw [List.append_nil] at cut
          exact clean (cut ▸ List.infix_rfl)
        nth_rewrite 1 [← cut] at begins
        exact t.apart cut.symm (by simp) some_ ((List.prefix_append_right_inj (a :: content)).mp begins)
    rw [List.cons_append,upTo,← List.cons_append,if_neg other,ih later]
    rfl

theorem cleanSections (t : Terminator α) (opening : List α) {contents : List (List α)}
    (clean : ∀ content ∈ contents, t.Clean content) (tail : List α) :
    Sections opening t.text (contents.flatMap (fun content => opening ++ content ++ t.text) ++ tail) contents tail := by
  induction contents with
  | nil => exact .nil tail
  | cons content contents ih =>
    have rest := ih fun other member => clean other (List.mem_cons_of_mem _ member)
    refine .cons ?_ rest
    rw [List.flatMap_cons,List.append_assoc,List.append_assoc,List.append_assoc,readSection,
      if_pos (List.prefix_append _ _),List.drop_left]
    exact cleanReads t (clean content List.mem_cons_self) _

end reader

namespace Terminator

theorem textCons (t : Terminator α) : ∃ a rest, t.text = a :: rest := List.exists_cons_of_length_pos t.textPositive

theorem dropShorter (t : Terminator α) (a : α) (rest : List α) :
    ((a :: rest).drop t.text.length).length < (a :: rest).length := by
  have some_ := t.textPositive
  rw [List.length_drop,List.length_cons]
  omega

/- The writer: a section ends and another begins inside each terminator of the text. -/
def spliced [DecidableEq α] (t : Terminator α) (opening s : List α) : List α :=
  match s with
  | [] => []
  | a :: rest =>
    if t.text <+: a :: rest then
      t.left ++ t.text ++ opening ++ t.right ++ t.spliced opening ((a :: rest).drop t.text.length)
    else a :: t.spliced opening rest
termination_by s.length
decreasing_by
  · exact t.dropShorter a rest
  · simp

def pieces [DecidableEq α] (t : Terminator α) (s : List α) : List α × List (List α) :=
  match s with
  | [] => ([],[])
  | a :: rest =>
    if t.text <+: a :: rest then
      let later := t.pieces ((a :: rest).drop t.text.length)
      (t.left,(t.right ++ later.1) :: later.2)
    else
      let later := t.pieces rest
      (a :: later.1,later.2)
termination_by s.length
decreasing_by
  · exact t.dropShorter a rest
  · simp

variable [DecidableEq α] (t : Terminator α) (opening : List α)

def contents (s : List α) : List (List α) := (t.pieces s).1 :: (t.pieces s).2

@[elab_as_elim] theorem scanned {P : List α → Prop} (nil : P []) (found : ∀ back, P back → P (t.text ++ back))
    (other : ∀ a rest, ¬ t.text <+: a :: rest → P rest → P (a :: rest)) (s : List α) : P s := by
  fun_induction spliced t [] s with
  | case1 => exact nil
  | case2 a rest begins ih =>
    obtain ⟨back,cut⟩ := begins
    rw [← cut,List.drop_left] at ih
    rw [← cut]
    exact found back ih
  | case3 a rest absent ih => exact other a rest absent ih

@[simp] theorem splicedFound (back : List α) : t.spliced opening (t.text ++ back) =
    t.left ++ t.text ++ opening ++ t.right ++ t.spliced opening back := by
  obtain ⟨a,rest,written⟩ := t.textCons
  have begins : t.text <+: a :: (rest ++ back) := ⟨back,by rw [written,List.cons_append]⟩
  have dropped : (a :: (rest ++ back)).drop t.text.length = back := by
    rw [written,← List.cons_append,List.drop_left]
  rw [show t.text ++ back = a :: (rest ++ back) by rw [written,List.cons_append],spliced,if_pos begins,dropped]

theorem splicedOther {a : α} {rest : List α} (absent : ¬ t.text <+: a :: rest) :
    t.spliced opening (a :: rest) = a :: t.spliced opening rest := by
  rw [spliced,if_neg absent]

@[simp] theorem piecesFound (back : List α) : t.pieces (t.text ++ back) =
    (t.left,(t.right ++ (t.pieces back).1) :: (t.pieces back).2) := by
  obtain ⟨a,rest,written⟩ := t.textCons
  have begins : t.text <+: a :: (rest ++ back) := ⟨back,by rw [written,List.cons_append]⟩
  have dropped : (a :: (rest ++ back)).drop t.text.length = back := by
    rw [written,← List.cons_append,List.drop_left]
  rw [show t.text ++ back = a :: (rest ++ back) by rw [written,List.cons_append],pieces,if_pos begins,dropped]

theorem piecesOther {a : α} {rest : List α} (absent : ¬ t.text <+: a :: rest) :
    t.pieces (a :: rest) = (a :: (t.pieces rest).1,(t.pieces rest).2) := by
  rw [pieces,if_neg absent]

@[simp] theorem splicedNil : t.spliced opening [] = [] := by rw [spliced]

@[simp] theorem piecesNil : t.pieces [] = ([],[]) := by rw [pieces]

theorem contentsJoin (s : List α) : (t.contents s).flatten = s := by
  unfold contents
  induction s using t.scanned with
  | nil => simp
  | found back ih =>
    rw [List.flatten_cons] at ih
    rw [piecesFound,List.flatten_cons,List.flatten_cons,List.append_assoc,ih,← List.append_assoc]
    rfl
  | other a rest absent ih =>
    rw [List.flatten_cons] at ih
    rw [piecesOther t absent,List.flatten_cons,List.cons_append,ih]

theorem splicedJoin (s : List α) : opening ++ t.spliced opening s ++ t.text =
    (t.contents s).flatMap fun content => opening ++ content ++ t.text := by
  suffices inner : t.spliced opening s ++ t.text =
      (t.pieces s).1 ++ t.text ++ (t.pieces s).2.flatMap fun content => opening ++ content ++ t.text by
    rw [contents,List.flatMap_cons,List.append_assoc,inner]
    simp only [List.append_assoc]
  induction s using t.scanned with
  | nil => simp
  | found back ih =>
    simp only [splicedFound,piecesFound,List.append_assoc,List.flatMap_cons] at ih ⊢
    rw [ih]
  | other a rest absent ih =>
    rw [splicedOther t opening absent,piecesOther t absent,List.cons_append,ih]
    rfl

theorem contentsClean (s : List α) : ∀ content ∈ t.contents s, t.Clean content := by
  suffices both : (t.pieces s).1 <+: s ∧ ∀ content ∈ t.contents s, t.Clean content from both.2
  unfold contents
  induction s using t.scanned with
  | nil =>
    rw [piecesNil]
    refine ⟨List.prefix_rfl,fun content member inside => ?_⟩
    rw [List.mem_singleton.mp member] at inside
    have some_ := t.textPositive
    have none_ := inside.length_le
    rw [List.length_nil] at none_
    omega
  | found back ih =>
    simp only [piecesFound]
    have half : t.left <+: t.text := List.prefix_append t.left t.right
    refine ⟨half.trans (List.prefix_append _ back),fun content member inside => ?_⟩
    rcases List.mem_cons.mp member with rfl | member
    · -- The first half is shorter than the terminator.
      have short := inside.length_le
      have other := List.length_pos_iff.mpr t.rightNonempty
      rw [text,List.length_append] at short
      omega
    rcases List.mem_cons.mp member with rfl | member
    · obtain ⟨front,tail,cut⟩ := inside
      rw [List.append_assoc] at cut
      rcases List.append_eq_append_iff.mp cut with ⟨u,mine,after⟩ | ⟨u,_,after⟩
      · -- It begins in the second half, and overlaps the terminator that was cut.
        cases u with
        | nil => exact ih.2 _ List.mem_cons_self ⟨[],tail,by simpa using after⟩
        | cons b u =>
          have whole : t.text = (t.left ++ front) ++ (b :: u) := by rw [text,mine,List.append_assoc]
          have front_ : t.left ++ front ≠ [] := by simp [t.leftNonempty]
          exact t.apart whole front_ (by simp) ⟨(t.pieces back).1,after.symm⟩
      · exact ih.2 _ List.mem_cons_self ⟨u,tail,by rw [List.append_assoc]; exact after.symm⟩
    · exact ih.2 content (List.mem_cons_of_mem _ member) inside
  | other a rest absent ih =>
    simp only [piecesOther t absent]
    have begins : a :: (t.pieces rest).1 <+: a :: rest := (List.prefix_cons_inj a).mpr ih.1
    refine ⟨begins,fun content member inside => ?_⟩
    rcases List.mem_cons.mp member with rfl | member
    · rcases List.infix_cons_iff.mp inside with first | inside
      · exact absent (first.trans begins)
      · exact ih.2 _ List.mem_cons_self inside
    · exact ih.2 content (List.mem_cons_of_mem _ member) inside

theorem piecesBegin (s : List α) : ∀ content ∈ (t.pieces s).2, t.right <+: content := by
  induction s using t.scanned with
  | nil => simp
  | found back ih =>
    rw [piecesFound]
    intro content member
    rcases List.mem_cons.mp member with rfl | member
    · exact List.prefix_append _ _
    · exact ih content member
  | other a rest absent ih =>
    rw [piecesOther t absent]
    exact ih

theorem splicedSections (s tail : List α) :
    Sections opening t.text (opening ++ t.spliced opening s ++ t.text ++ tail) (t.contents s) tail := by
  rw [splicedJoin]
  exact cleanSections t opening (t.contentsClean s) tail

theorem splicedLength (s : List α) : (t.spliced opening s).length =
    s.length + (t.pieces s).2.length * (t.text.length + opening.length) := by
  have whole : t.text.length = t.left.length + t.right.length := by rw [text,List.length_append]
  induction s using t.scanned with
  | nil => simp
  | found back ih =>
    simp only [splicedFound,piecesFound,List.length_append,List.length_cons,Nat.succ_mul,ih]
    omega
  | other a rest absent ih =>
    simp only [splicedOther t opening absent,piecesOther t absent,List.length_cons,ih]
    omega

theorem piecesLength (s : List α) : (t.pieces s).2.length * t.text.length ≤ s.length := by
  induction s using t.scanned with
  | nil => simp
  | found back ih =>
    rw [piecesFound,List.length_cons,Nat.succ_mul,List.length_append]
    omega
  | other a rest absent ih =>
    simp only [piecesOther t absent,List.length_cons]
    omega

end Terminator
end CachePurge.General
