import Mathlib.Data.Finset.Sort
import Mathlib.Data.List.Sort

/-! A bounded batch keeps, of the items it is given, those with the smallest keys,
as many as it has room for, and remembers whether it was offered more; batches
that start where the last one ended go through all the items in order. -/
namespace CachePurge.General

structure Batch (α : Type) where
  items : List α
  more : Bool
  deriving DecidableEq, Repr

section batch
variable {α κ : Type} [LinearOrder κ] (key : α → κ) (limit : Nat)

/- The place of the first item with the greatest key. -/
def largest : List α → Nat
  | [] => 0
  | x :: rest => match rest[largest rest]? with
    | none => 0
    | some y => if key x < key y then largest rest + 1 else 0

namespace Batch

def empty : Batch α := ⟨[],false⟩

def add (x : α) (b : Batch α) : Batch α :=
  if b.items.any fun y => key y == key x then b
  else if b.items.length = limit then
    {b with
      more := true
      items := match b.items[largest key b.items]? with
        | none => b.items
        | some y => if key y ≤ key x then b.items else b.items.set (largest key b.items) x}
  else {b with items := b.items ++ [x]}

def addAll (xs : List α) (b : Batch α) : Batch α := xs.foldl (fun b x => b.add key limit x) b

end Batch

theorem largestAt {items : List α} (some_ : items ≠ []) :
    ∃ y, items[largest key items]? = some y ∧ ∀ x ∈ items, key x ≤ key y := by
  induction items with
  | nil => contradiction
  | cons x rest ih =>
    unfold largest
    cases rest with
    | nil => exact ⟨x,rfl,by simp⟩
    | cons x' rest =>
      obtain ⟨y,at_,top⟩ := ih (by simp)
      rw [at_]
      simp only
      split
      · rename_i less
        refine ⟨y,at_,fun z member => ?_⟩
        rcases List.mem_cons.mp member with rfl | later
        · exact less.le
        · exact top z later
      · rename_i most
        refine ⟨x,rfl,fun z member => ?_⟩
        rcases List.mem_cons.mp member with rfl | later
        · exact le_rfl
        · exact (top z later).trans (not_lt.mp most)

/- The batch holds the smallest of the keys offered, and turned the rest away. -/
structure Smallest (offered : List κ) (b : Batch α) : Prop where
  room : b.items.length ≤ limit
  split : ∃ rest, offered.Perm (b.items.map key ++ rest) ∧ (∀ x ∈ b.items, ∀ k ∈ rest, key x ≤ k) ∧
    (b.more = true ↔ rest ≠ []) ∧ (rest ≠ [] → b.items.length = limit)

variable {key limit}

theorem smallestEmpty : Smallest key limit [] (Batch.empty : Batch α) :=
  ⟨Nat.zero_le _,[],by simp [Batch.empty],by simp,by simp [Batch.empty],by simp⟩

theorem setPerm {items : List α} {i : Nat} {x y : α} (at_ : items[i]? = some y) :
    (y :: items.set i x).Perm (x :: items) := by
  induction items generalizing i with
  | nil => simp at at_
  | cons z rest ih =>
    cases i with
    | zero =>
      cases Option.some.inj at_
      exact .swap ..
    | succ i =>
      have inner := ih (by simpa using at_)
      exact (List.Perm.swap z y _).trans ((inner.cons z).trans (.swap x z _))

theorem addSmallest {offered : List κ} {b : Batch α} {x : α} (positive : 0 < limit)
    (smallest : Smallest key limit offered b) (fresh : key x ∉ offered) :
    Smallest key limit (offered ++ [key x]) (b.add key limit x) := by
  obtain ⟨room,rest,perm,below,more,full⟩ := smallest
  have new : (b.items.any fun y => key y == key x) = false := by
    simp only [List.any_eq_false,beq_iff_eq]
    intro y member same
    exact fresh (perm.mem_iff.mpr (List.mem_append_left _ (same ▸ List.mem_map_of_mem member)))
  unfold Batch.add
  rw [new]
  simp only [Bool.false_eq_true,if_false]
  split
  · rename_i at_limit
    obtain ⟨y,at_,top⟩ := largestAt key (List.ne_nil_of_length_pos (by omega) : b.items ≠ [])
    rw [at_]
    simp only
    split
    · rename_i above
      refine ⟨room,key x :: rest,?_,fun z member k => ?_,by simp,fun _ => at_limit⟩
      · exact (perm.append_right _).trans (by simpa using (List.perm_append_singleton ..).append_left _)
      · rw [List.mem_cons]
        rintro (rfl | old)
        · exact (top z member).trans above
        · exact below z member k old
    · rename_i above
      have swap := (setPerm (x := x) at_).map key
      simp only [List.map_cons] at swap
      refine ⟨by simpa using room,key y :: rest,?_,fun z member k => ?_,by simp,fun _ => by simpa using at_limit⟩
      · have moved : (key x :: (b.items.map key ++ rest)).Perm
            ((b.items.set (largest key b.items) x).map key ++ key y :: rest) :=
          (swap.symm.append_right rest).trans List.perm_middle.symm
        exact (List.perm_append_singleton ..).trans ((perm.cons _).trans moved)
      · have bound : key z ≤ key y ∧ ∀ k ∈ rest, key z ≤ k := by
          rcases List.mem_or_eq_of_mem_set member with old | rfl
          · exact ⟨top z old,below z old⟩
          · exact ⟨(not_le.mp above).le,fun k old =>
              (not_le.mp above).le.trans (below y (List.mem_of_getElem? at_) k old)⟩
        rw [List.mem_cons]
        rintro (rfl | old)
        · exact bound.1
        · exact bound.2 k old
  · rename_i open_
    have none : rest = [] := by
      by_contra some_
      exact open_ (full some_)
    subst none
    refine ⟨by simp only [List.length_append,List.length_singleton]; omega,[],?_,by simp,more,by simp⟩
    simpa using perm.append_right [key x]

theorem addAllSmallest {xs : List α} {offered : List κ} {b : Batch α} (positive : 0 < limit)
    (smallest : Smallest key limit offered b) (distinct : (offered ++ xs.map key).Nodup) :
    Smallest key limit (offered ++ xs.map key) (b.addAll key limit xs) := by
  induction xs generalizing offered b with
  | nil => simpa [Batch.addAll] using smallest
  | cons x rest ih =>
    have apart : key x ∉ offered := by
      intro member
      exact List.disjoint_of_nodup_append distinct member (by simp)
    have next := ih (addSmallest positive smallest apart) (by simpa using distinct)
    simpa [Batch.addAll] using next

theorem addAgain {offered : List κ} {b : Batch α} {x : α} (smallest : Smallest key limit offered b)
    (again : key x ∈ offered) : b.add key limit x = b := by
  obtain ⟨room,rest,perm,below,more,full⟩ := smallest
  unfold Batch.add
  split
  · rfl
  rename_i new
  have turned : key x ∈ rest := by
    rcases List.mem_append.mp (perm.mem_iff.mp again) with held | away
    · obtain ⟨y,member,same⟩ := List.mem_map.mp held
      have held : (b.items.any fun y => key y == key x) = true := List.any_eq_true.mpr ⟨y,member,beq_iff_eq.mpr same⟩
      exact absurd held new
    · exact away
  have some_ : rest ≠ [] := List.ne_nil_of_mem turned
  rw [if_pos (full some_)]
  have said : b.more = true := more.mpr some_
  have same : (match b.items[largest key b.items]? with
      | none => b.items
      | some y => if key y ≤ key x then b.items else b.items.set (largest key b.items) x) = b.items := by
    split
    · rfl
    · rename_i y at_
      exact if_pos (below y (List.mem_of_getElem? at_) _ turned)
  rw [same,← said]

theorem addAllKept {xs : List α} {offered : List κ} {b : Batch α} (positive : 0 < limit)
    (smallest : Smallest key limit offered b) (distinct : offered.Nodup) :
    ∃ keys : List κ, keys.Nodup ∧ keys.toFinset = offered.toFinset ∪ (xs.map key).toFinset ∧
      Smallest key limit keys (b.addAll key limit xs) := by
  induction xs generalizing offered b with
  | nil => exact ⟨offered,distinct,by simp,smallest⟩
  | cons x rest ih =>
    by_cases again : key x ∈ offered
    · obtain ⟨keys,nodup,all,kept⟩ := ih smallest distinct
      refine ⟨keys,nodup,?_,?_⟩
      · rw [all,List.map_cons,List.toFinset_cons,Finset.union_insert,
          Finset.insert_eq_self.mpr (Finset.mem_union_left _ (List.mem_toFinset.mpr again))]
      · rw [Batch.addAll,List.foldl_cons,addAgain smallest again]
        exact kept
    · have more : (offered ++ [key x]).Nodup :=
        List.nodup_append.mpr ⟨distinct,List.nodup_singleton _,fun k member k' single same =>
          again (List.mem_singleton.mp single ▸ same ▸ member)⟩
      obtain ⟨keys,nodup,all,kept⟩ := ih (addSmallest positive smallest again) more
      refine ⟨keys,nodup,?_,kept⟩
      rw [all,List.map_cons,List.toFinset_cons,List.toFinset_append]
      ext k
      simp

theorem smallestSorted {offered : Finset κ} {keys : List κ} {b : Batch α} (smallest : Smallest key limit keys b)
    (all : keys.toFinset = offered) (distinct : keys.Nodup) :
    (b.items.map key).insertionSort (· ≤ ·) = (offered.sort (· ≤ ·)).take limit ∧
      (b.more = true ↔ limit < offered.card) := by
  obtain ⟨room,rest,perm,below,more,full⟩ := smallest
  have card : offered.card = b.items.length + rest.length := by
    rw [← all,List.toFinset_card_of_nodup distinct,perm.length_eq]
    simp
  have sorted : offered.sort (· ≤ ·) =
      (b.items.map key).insertionSort (· ≤ ·) ++ rest.insertionSort (· ≤ ·) := by
    refine @List.Perm.eq_of_pairwise κ (· ≤ ·) _ _ (fun a b _ _ => le_antisymm) (Finset.pairwise_sort ..) ?_ ?_
    · refine List.pairwise_append.mpr ⟨List.pairwise_insertionSort ..,List.pairwise_insertionSort ..,
        fun k first k' last => ?_⟩
      obtain ⟨x,member,rfl⟩ := List.mem_map.mp ((List.mem_insertionSort _).mp first)
      exact below x member k' ((List.mem_insertionSort _).mp last)
    · have keysPerm : (offered.sort (· ≤ ·)).Perm keys := by
        rw [← all]
        exact (List.perm_ext_iff_of_nodup (Finset.sort_nodup ..) distinct).mpr fun k => by simp
      exact keysPerm.trans (perm.trans ((List.perm_insertionSort ..).symm.append (List.perm_insertionSort ..).symm))
  rw [sorted]
  rcases eq_or_ne rest [] with rfl | some_
  · refine ⟨?_,?_⟩
    · rw [List.take_of_length_le]
      · simp
      · simpa using room
    · rw [more,card]
      simpa using room
  · have exactly := full some_
    have positive : 0 < rest.length := List.length_pos_iff.mpr some_
    refine ⟨?_,?_⟩
    · rw [List.take_left' (by simpa using exactly)]
    · rw [more,card]
      simp only [ne_eq,some_,not_false_eq_true,true_iff]
      omega

end batch
section cursor
variable {κ : Type} [LinearOrder κ] {keys : Finset κ} {cursor : κ}

/- The keys behind a cursor, in order. -/
def above (keys : Finset κ) (cursor : κ) : List κ := (keys.filter (cursor < ·)).sort (· ≤ ·)

def cursorAfter (cursor : κ) (passed : List κ) : κ := passed.getLast?.getD cursor

theorem aboveMember {k : κ} : k ∈ above keys cursor ↔ k ∈ keys ∧ cursor < k := by simp [above]

theorem aboveSorted : (above keys cursor).Pairwise (· < ·) := Finset.sortedLT_sort _ |>.pairwise

theorem sortedAbove {rest : List κ} (sorted : rest.Pairwise (· < ·))
    (members : ∀ k, k ∈ rest ↔ k ∈ keys ∧ cursor < k) : rest = above keys cursor := by
  refine @List.Perm.eq_of_pairwise κ (· < ·) _ _ (fun a b _ _ less more => absurd less more.asymm) sorted
    aboveSorted ?_
  have nodup {l : List κ} (strict : l.Pairwise (· < ·)) : l.Nodup := strict.imp ne_of_lt
  exact (List.perm_ext_iff_of_nodup (nodup sorted) (nodup aboveSorted)).mpr fun k => by rw [members,aboveMember]

theorem aboveAfter {passed : List κ} (front : passed <+: above keys cursor) :
    above keys cursor = passed ++ above keys (cursorAfter cursor passed) := by
  obtain ⟨rest,whole⟩ := front
  have sorted : (passed ++ rest).Pairwise (· < ·) := whole ▸ aboveSorted
  obtain ⟨_,restSorted,apart⟩ := List.pairwise_append.mp sorted
  rw [← whole,← sortedAbove restSorted fun k => ?_]
  have member : k ∈ passed ++ rest ↔ k ∈ keys ∧ cursor < k := by rw [whole,aboveMember]
  rcases List.eq_nil_or_concat' passed with rfl | ⟨init,last,rfl⟩
  · simpa [cursorAfter] using member
  · have next : cursorAfter cursor (init ++ [last]) = last := by simp [cursorAfter]
    rw [next]
    constructor
    · intro later
      exact ⟨(member.mp (List.mem_append_right _ later)).1,apart last (by simp) k later⟩
    · rintro ⟨inside,less⟩
      have start : cursor < last := (aboveMember.mp (whole ▸ by simp : last ∈ above keys cursor)).2
      rcases List.mem_append.mp (member.mpr ⟨inside,start.trans less⟩) with earlier | later
      · obtain ⟨ordered,_,_⟩ := List.pairwise_append.mp sorted
        rcases List.mem_append.mp earlier with before | same
        · exact absurd less ((List.pairwise_append.mp ordered).2.2 k before last (by simp)).asymm
        · exact absurd less (by simp [List.mem_singleton.mp same])
      · exact later

end cursor
end CachePurge.General
