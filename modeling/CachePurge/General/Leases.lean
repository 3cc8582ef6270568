import Mathlib.Data.List.Induction
import Mathlib.Tactic.ByContra

/-! Histories of leases. A resource is granted to a holder and the lease is
ended under the name of that holder, before the next grant: following a history
gives the present holder, or nothing when the history breaks the rule. Resources
and holders are arbitrary. -/
namespace CachePurge.General

inductive Lease (ρ η : Type) where
  | granted (r : ρ) (h : η)
  | ended (r : ρ) (h : η)
  deriving DecidableEq, Repr

namespace Lease
variable {ρ η : Type} [DecidableEq ρ] [DecidableEq η]

def next (r : ρ) (holder : Option η) : Lease ρ η → Option (Option η)
  | .granted r' h => if r' = r then (if holder = none then some (some h) else none) else some holder
  | .ended r' h => if r' = r then (if holder = some h then some none else none) else some holder

def follow (r : ρ) (history : List (Lease ρ η)) : Option (Option η) :=
  history.foldlM (next r) none

@[simp] theorem followNil (r : ρ) : follow r ([] : List (Lease ρ η)) = some none := rfl

theorem followAppend (r : ρ) (front back : List (Lease ρ η)) :
    follow r (front ++ back) = (follow r front).bind fun holder => back.foldlM (next r) holder := by
  simp only [follow,List.foldlM_append]
  rfl

theorem followSnoc (r : ρ) (front : List (Lease ρ η)) (last : Lease ρ η) :
    follow r (front ++ [last]) = (follow r front).bind fun holder => next r holder last := by
  rw [followAppend]
  congr 1
  funext holder
  simp

/- In a followed history every end closes a grant to the same holder, and the
resource is neither granted nor ended in between. -/
theorem endedGrant {r : ρ} {h : η} {front back : List (Lease ρ η)} {holder : Option η}
    (ok : follow r (front ++ .ended r h :: back) = some holder) :
    ∃ before between, front = before ++ .granted r h :: between ∧
      ∀ h', .granted r h' ∉ between ∧ .ended r h' ∉ between := by
  rw [followAppend] at ok
  obtain ⟨open_,opened,rest⟩ := Option.bind_eq_some_iff.mp ok
  have mine : open_ = some h := by
    by_contra other
    simp [List.foldlM_cons,next,other] at rest
  subst mine
  clear ok rest
  -- The last lease of r in front is the grant that left h in place.
  induction front using List.reverseRecOn with
  | nil => simp at opened
  | append_singleton front last ih =>
    rw [followSnoc] at opened
    obtain ⟨earlier,followed,moved⟩ := Option.bind_eq_some_iff.mp opened
    cases last with
    | granted r' h' =>
      simp only [next] at moved
      split at moved
      · rename_i same
        subst same
        split at moved <;> cases moved
        exact ⟨front,[],rfl,by simp⟩
      · rename_i other
        cases Option.some.inj moved
        obtain ⟨before,between,rfl,clean⟩ := ih followed
        refine ⟨before,between ++ [.granted r' h'],by simp,fun h'' => ?_⟩
        simp [clean h'',Ne.symm other]
    | ended r' h' =>
      simp only [next] at moved
      split at moved
      · split at moved <;> cases moved
      · rename_i other
        cases Option.some.inj moved
        obtain ⟨before,between,rfl,clean⟩ := ih followed
        refine ⟨before,between ++ [.ended r' h'],by simp,fun h'' => ?_⟩
        simp [clean h'',Ne.symm other]

end Lease
end CachePurge.General
