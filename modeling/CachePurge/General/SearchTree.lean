import Mathlib.Algebra.Ring.Int.Defs
import Mathlib.Order.Compare
import Mathlib.Order.Lattice
import Mathlib.Data.List.Basic

/-! Binary search trees as lookups see them: what a descent by a three-way comparison
finds, and what changing the element it ends at does to the elements. -/
namespace CachePurge.General

inductive SearchTree (α : Type) where
  | leaf
  | node (left : SearchTree α) (a : α) (right : SearchTree α)
  deriving DecidableEq, Repr

namespace SearchTree
variable {α K : Type} [LinearOrder K]

def toList : SearchTree α → List α
  | leaf => []
  | node left a right => left.toList ++ a :: right.toList

def map (f : α → α) : SearchTree α → SearchTree α
  | leaf => leaf
  | node left a right => node (left.map f) (f a) (right.map f)

def find (probe : α → Ordering) : SearchTree α → Option α
  | leaf => none
  | node left a right =>
    match probe a with
    | .lt => left.find probe
    | .gt => right.find probe
    | .eq => some a

def change (probe : α → Ordering) (f : α → α) : SearchTree α → SearchTree α
  | leaf => leaf
  | node left a right =>
    match probe a with
    | .lt => node (left.change probe f) a right
    | .gt => node left a (right.change probe f)
    | .eq => node left (f a) right

def Ordered (key : α → K) (t : SearchTree α) : Prop := t.toList.Pairwise fun a b => key a < key b

variable {key : α → K} {k : K} {probe : α → Ordering} {f : α → α} {t : SearchTree α}

theorem mapList (t : SearchTree α) : (t.map f).toList = t.toList.map f := by
  induction t with
  | leaf => rfl
  | node left a right left_ih right_ih => simp [map,toList,left_ih,right_ih]

theorem mapAgree {g : α → α} (same : ∀ a ∈ t.toList, f a = g a) : t.map f = t.map g := by
  induction t with
  | leaf => rfl
  | node left a right left_ih right_ih =>
    rw [map,map,same a (by simp [toList]),left_ih fun b member => same b (by simp [toList,member]),
      right_ih fun b member => same b (by simp [toList,member])]

theorem mapId (t : SearchTree α) : t.map id = t := by
  induction t with
  | leaf => rfl
  | node left a right left_ih right_ih => rw [map,left_ih,right_ih,id]

theorem mapSame (same : ∀ a ∈ t.toList, f a = a) : t.map f = t := (mapAgree same).trans (mapId t)

theorem orderedNode {left right : SearchTree α} {a : α} (ordered : (node left a right).Ordered key) :
    left.Ordered key ∧ right.Ordered key ∧ (∀ b ∈ left.toList, key b < key a) ∧ ∀ b ∈ right.toList, key a < key b := by
  obtain ⟨lower,upper,across⟩ := List.pairwise_append.mp ordered
  obtain ⟨above,upper⟩ := List.pairwise_cons.mp upper
  exact ⟨lower,upper,fun b member => across b member a List.mem_cons_self,above⟩

theorem mapOrdered (kept : ∀ a, key (f a) = key a) (ordered : t.Ordered key) : (t.map f).Ordered key := by
  rw [Ordered,mapList,List.pairwise_map]
  exact ordered.imp fun {a b} below => by rwa [kept,kept]

/- By induction on the tree: of the three parts the descent leaves two aside, and
no element of these has the key. -/
theorem findIff (probes : ∀ a, (probe a).Compares k (key a)) (ordered : t.Ordered key) (b : α) :
    t.find probe = some b ↔ b ∈ t.toList ∧ key b = k := by
  induction t with
  | leaf => simp [find,toList]
  | node left a right left_ih right_ih =>
    obtain ⟨lower,upper,below,above⟩ := orderedNode ordered
    have probed := probes a
    rw [find,toList,List.mem_append,List.mem_cons]
    cases outcome : probe a with
    | lt =>
      rw [outcome] at probed
      refine (left_ih lower).trans ⟨fun found => ⟨.inl found.1,found.2⟩,?_⟩
      rintro ⟨here | rfl | here,same⟩
      · exact ⟨here,same⟩
      · exact absurd probed (same.le.not_gt)
      · exact absurd (probed.trans (above b here)) (same.le.not_gt)
    | gt =>
      rw [outcome] at probed
      refine (right_ih upper).trans ⟨fun found => ⟨.inr (.inr found.1),found.2⟩,?_⟩
      rintro ⟨here | rfl | here,same⟩
      · exact absurd ((below b here).trans probed) (same.ge.not_gt)
      · exact absurd probed (same.ge.not_gt)
      · exact ⟨here,same⟩
    | eq =>
      rw [outcome] at probed
      refine ⟨?_,?_⟩
      · rintro found
        cases Option.some.inj found
        exact ⟨.inr (.inl rfl),probed.symm⟩
      · rintro ⟨here | rfl | here,same⟩
        · exact absurd (below b here) (by rw [same,probed]; exact lt_irrefl _)
        · rfl
        · exact absurd (above b here) (by rw [same,probed]; exact lt_irrefl _)

theorem findNone (probes : ∀ a, (probe a).Compares k (key a)) (ordered : t.Ordered key) (missing : t.find probe = none) :
    ∀ a ∈ t.toList, key a ≠ k := by
  intro a member same
  rw [(findIff probes ordered a).mpr ⟨member,same⟩] at missing
  contradiction

/- Only the element with the key is changed, and the tree keeps its shape. -/
theorem changeMaps [DecidableEq K] (probes : ∀ a, (probe a).Compares k (key a)) (ordered : t.Ordered key) :
    t.change probe f = t.map fun a => if key a = k then f a else a := by
  induction t with
  | leaf => rfl
  | node left a right left_ih right_ih =>
    obtain ⟨lower,upper,below,above⟩ := orderedNode ordered
    have probed := probes a
    rw [change,map]
    cases outcome : probe a with
    | lt =>
      rw [outcome] at probed
      have other (b : α) (here : b ∈ right.toList) : key b ≠ k := fun same => absurd (probed.trans (above b here)) same.le.not_gt
      rw [left_ih lower,mapSame fun b here => if_neg (other b here),if_neg fun same => absurd probed same.le.not_gt]
    | gt =>
      rw [outcome] at probed
      have other (b : α) (here : b ∈ left.toList) : key b ≠ k := fun same => absurd ((below b here).trans probed) same.ge.not_gt
      rw [right_ih upper,mapSame fun b here => if_neg (other b here),if_neg fun same => absurd probed same.ge.not_gt]
    | eq =>
      rw [outcome] at probed
      have lower_ (b : α) (here : b ∈ left.toList) : key b ≠ k := fun same => (below b here).ne (same.trans probed)
      have upper_ (b : α) (here : b ∈ right.toList) : key b ≠ k := fun same => (above b here).ne' (same.trans probed)
      rw [mapSame fun b here => if_neg (lower_ b here),mapSame fun b here => if_neg (upper_ b here),if_pos probed.symm]

theorem changeSum [DecidableEq K] (ordered : t.Ordered key) {a : α} (member : a ∈ t.toList) (weight : α → Int) :
    ((t.map fun b => if key b = key a then f b else b).toList.map weight).sum =
      (t.toList.map weight).sum - weight a + weight (f a) := by
  obtain ⟨before,after,split_⟩ := List.append_of_mem member
  rw [Ordered,split_,List.pairwise_append,List.pairwise_cons] at ordered
  obtain ⟨_,⟨above,_⟩,across⟩ := ordered
  have lower : (before.map fun b => if key b = key a then f b else b) = before :=
    (List.map_congr_left fun b here => if_neg (across b here a List.mem_cons_self).ne).trans (List.map_id _)
  have upper : (after.map fun b => if key b = key a then f b else b) = after :=
    (List.map_congr_left fun b here => if_neg (above b here).ne').trans (List.map_id _)
  rw [mapList,split_,List.map_append,List.map_cons,lower,upper,if_pos rfl]
  simp only [List.map_append,List.map_cons,List.sum_append,List.sum_cons]
  omega

end SearchTree
end CachePurge.General
