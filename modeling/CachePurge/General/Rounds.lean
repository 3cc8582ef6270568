import Mathlib.Data.List.Basic

/-! A queue that is served in rounds. A round looks at the entries at the front,
as many as its limit; those it does not serve go behind all the others. So an
entry comes nearer to the front by the limit in every round that passes it by. -/
namespace CachePurge.General

section rounds
variable {α : Type} {limit : Nat} {queue : Nat → List α} {Served : Nat → Prop}

theorem nearer {xs kept : List α} {i : Nat} {x : α} (at_ : xs[i]? = some x) (later : limit ≤ i) :
    (xs.drop limit ++ kept)[i - limit]? = some x := by
  have place : limit + (i - limit) = i := by omega
  have left : (xs.drop limit)[i - limit]? = some x := by rw [List.getElem?_drop,place,at_]
  have short : i - limit < (xs.drop limit).length := (List.getElem?_eq_some_iff.mp left).1
  rw [List.getElem?_append_left short,left]

/- By induction on the number of rounds that the place is away. -/
theorem servedAt {x : α} (near : ∀ k, x ∈ (queue k).take limit → Served k)
    (far : ∀ k, ¬ Served k → ∃ kept, queue (k + 1) = (queue k).drop limit ++ kept) (n k i : Nat)
    (at_ : (queue k)[i]? = some x) (rounds : i < limit * (n + 1)) : ∃ j, j ≤ n ∧ Served (k + j) := by
  induction n generalizing k i with
  | zero =>
    refine ⟨0,Nat.le_refl 0,near k ?_⟩
    have here : ((queue k).take limit)[i]? = some x := by
      rw [List.getElem?_take_of_lt (by simpa using rounds),at_]
    exact List.mem_of_getElem? here
  | succ n ih =>
    by_cases served : Served k
    · exact ⟨0,Nat.zero_le _,served⟩
    by_cases front : i < limit
    · have here : ((queue k).take limit)[i]? = some x := by rw [List.getElem?_take_of_lt front,at_]
      exact ⟨0,Nat.zero_le _,near k (List.mem_of_getElem? here)⟩
    · obtain ⟨kept,next⟩ := far k served
      have moved : (queue (k + 1))[i - limit]? = some x := by rw [next]; exact nearer at_ (Nat.not_lt.mp front)
      have fewer : i - limit < limit * (n + 1) := by rw [Nat.mul_succ] at rounds; omega
      obtain ⟨j,few,done⟩ := ih (k + 1) (i - limit) moved fewer
      exact ⟨j + 1,by omega,by rwa [Nat.add_right_comm] at done⟩

theorem servedWithin {x : α} (positive : 0 < limit) (near : ∀ k, x ∈ (queue k).take limit → Served k)
    (far : ∀ k, ¬ Served k → ∃ kept, queue (k + 1) = (queue k).drop limit ++ kept) (waits : x ∈ queue 0) :
    ∃ k, k < ((queue 0).length + (limit - 1)) / limit ∧ Served k := by
  obtain ⟨i,inside,at_⟩ := List.getElem_of_mem waits
  have here : (queue 0)[i]? = some x := by rw [List.getElem?_eq_getElem inside,at_]
  obtain ⟨k,few,served⟩ := servedAt near far (i / limit) 0 i here (Nat.lt_mul_div_succ i positive)
  refine ⟨k,Nat.lt_of_le_of_lt few ?_,by simpa using served⟩
  have whole : i + limit ≤ (queue 0).length + (limit - 1) := by omega
  calc i / limit < i / limit + 1 := Nat.lt_succ_self _
    _ = (i + limit) / limit := (Nat.add_div_right i positive).symm
    _ ≤ ((queue 0).length + (limit - 1)) / limit := Nat.div_le_div_right whole

end rounds
end CachePurge.General
