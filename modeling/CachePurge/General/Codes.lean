import Mathlib.Data.List.Infix
import Mathlib.InformationTheory.Coding.UniquelyDecodable

/-! Texts made up of the words of a code. Where no word begins another, a text is read
from its front: the word that it begins with is the only one, and what follows must be
a text again. Within such a code the words of a text are those of any smaller code that
the text is written in. -/
namespace CachePurge.General
variable {α : Type} {C D : Set (List α)}

structure PrefixFree (C : Set (List α)) : Prop where
  nonempty : [] ∉ C
  apart : ∀ v ∈ C, ∀ w ∈ C, v <+: w → v = w

def Sentence (C : Set (List α)) (s : List α) : Prop :=
  ∃ words : List (List α), (∀ w ∈ words, w ∈ C) ∧ words.flatten = s

theorem sentenceNil : Sentence C [] := ⟨[],by simp,rfl⟩

theorem sentenceAppend {s r : List α} (left : Sentence C s) (right : Sentence C r) : Sentence C (s ++ r) := by
  obtain ⟨words,inside,rfl⟩ := left
  obtain ⟨later,inside',rfl⟩ := right
  refine ⟨words ++ later,?_,List.flatten_append⟩
  intro w member
  rcases List.mem_append.mp member with front | back
  · exact inside w front
  · exact inside' w back

theorem sentenceWord {w : List α} (word : w ∈ C) : Sentence C w := ⟨[w],by simpa using word,by simp⟩

/- A text that begins with no word is not one, unless it is empty. -/
theorem sentenceStuck {s : List α} (some_ : s ≠ []) (absent : ∀ w ∈ C, ¬ w <+: s) : ¬ Sentence C s := by
  rintro ⟨words,inside,rfl⟩
  cases words with
  | nil => exact some_ rfl
  | cons w words => exact absent w (inside w List.mem_cons_self) (List.prefix_append w words.flatten)

theorem sentenceCut {q : α → Prop} (first : ∀ w ∈ C, ∀ b ∈ w.tail, ¬ q b) {front back : List α} {b : α} (mark : q b)
    (text : Sentence C (front ++ b :: back)) : Sentence C front ∧ Sentence C (b :: back) := by
  obtain ⟨words,inside,same⟩ := text
  induction words generalizing front with
  | nil => simp at same
  | cons w words ih =>
    rw [List.flatten_cons] at same
    have later := fun w member => inside w (List.mem_cons_of_mem _ member)
    rcases List.append_eq_append_iff.mp same with ⟨u,rfl,rest⟩ | ⟨u,cut,rest⟩
    · obtain ⟨left,right⟩ := ih later rest
      exact ⟨sentenceAppend (sentenceWord (inside w List.mem_cons_self)) left,right⟩
    · cases front with
      | nil => exact ⟨sentenceNil,w :: words,inside,same⟩
      | cons a front =>
        cases u with
        | nil =>
          rw [List.append_nil] at cut
          rw [List.nil_append] at rest
          exact ⟨sentenceWord (cut ▸ inside w List.mem_cons_self),words,later,rest.symm⟩
        | cons b' u =>
          obtain ⟨rfl,_⟩ := List.cons.inj rest
          exact absurd mark (first w (inside w List.mem_cons_self) b (by simp [cut]))

namespace PrefixFree

theorem same (code : PrefixFree C) {v w r s : List α} (left : v ∈ C) (right : w ∈ C)
    (text : v ++ r = w ++ s) : v = w ∧ r = s := by
  have either : v = w := by
    rcases List.prefix_or_prefix_of_prefix ⟨r,rfl⟩ (⟨s,text.symm⟩ : w <+: v ++ r) with begins | begins
    · exact code.apart v left w right begins
    · exact (code.apart w right v left begins).symm
  subst either
  exact ⟨rfl,List.append_cancel_left text⟩

theorem uniquelyDecodable (code : PrefixFree C) : InformationTheory.UniquelyDecodable C := by
  intro words words' inside inside' text
  induction words generalizing words' with
  | nil =>
    cases words' with
    | nil => rfl
    | cons w words' =>
      have empty : w = [] := (List.append_eq_nil_iff.mp text.symm).1
      exact absurd (empty ▸ inside' w List.mem_cons_self) code.nonempty
  | cons v words ih =>
    cases words' with
    | nil =>
      have empty : v = [] := (List.append_eq_nil_iff.mp text).1
      exact absurd (empty ▸ inside v List.mem_cons_self) code.nonempty
    | cons w words' =>
      obtain ⟨rfl,rest⟩ := code.same (inside v List.mem_cons_self) (inside' w List.mem_cons_self) text
      rw [ih words' (fun w member => inside w (List.mem_cons_of_mem _ member))
        (fun w member => inside' w (List.mem_cons_of_mem _ member)) rest]

theorem sentenceCons (code : PrefixFree C) {w r : List α} (word : w ∈ C) :
    Sentence C (w ++ r) ↔ Sentence C r := by
  constructor
  · rintro ⟨words,inside,text⟩
    cases words with
    | nil =>
      have empty : w = [] := (List.append_eq_nil_iff.mp text.symm).1
      exact absurd (empty ▸ word) code.nonempty
    | cons v words =>
      obtain ⟨_,rest⟩ := code.same (inside v List.mem_cons_self) word text
      exact ⟨words,fun u member => inside u (List.mem_cons_of_mem _ member),rest⟩
  · exact sentenceAppend (sentenceWord word)

theorem sentenceDrop (code : PrefixFree C) {s r : List α} (front : Sentence C s) :
    Sentence C (s ++ r) ↔ Sentence C r := by
  obtain ⟨words,inside,rfl⟩ := front
  induction words with
  | nil => rfl
  | cons w words ih =>
    rw [List.flatten_cons,List.append_assoc,code.sentenceCons (inside w List.mem_cons_self)]
    exact ih fun v member => inside v (List.mem_cons_of_mem _ member)

theorem subcode (code : PrefixFree C) (inside : D ⊆ C) : PrefixFree D :=
  ⟨fun empty => code.nonempty (inside empty),fun v left w right => code.apart v (inside left) w (inside right)⟩

theorem wordsInside (code : PrefixFree C) (smaller : D ⊆ C) {words : List (List α)}
    (inside : ∀ w ∈ words, w ∈ C) (text : Sentence D words.flatten) : ∀ w ∈ words, w ∈ D := by
  obtain ⟨words',inside',same⟩ := text
  rw [code.uniquelyDecodable words words' inside (fun w member => smaller (inside' w member)) same.symm]
  exact inside'

end PrefixFree
end CachePurge.General
