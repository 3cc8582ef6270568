import CachePurge.Sweep
import Mathlib.Data.List.Infix

/-! Which stored keys a target selects. The reader hands out the key with the
newline behind it, and core's case-insensitive comparison stops at a zero byte of
both strings; what follows from the two is worked out here once. -/
namespace CachePurge

theorem tolowerZero {c : UInt8} : tolower c = 0 ↔ c = 0 := by
  have all : ∀ n : Fin 256, tolower (UInt8.ofNat n) = 0 ↔ UInt8.ofNat n = 0 := by decide +kernel
  simpa using all ⟨c.toNat,c.toNat_lt⟩

/- Two strings that agree, but for case, up to a zero byte of both. -/
def Cut (a b : Bytes) : Prop :=
  ∃ front back front' back', a = front ++ 0 :: back ∧ b = front' ++ 0 :: back' ∧ lowered front = lowered front'

theorem cutNil (b : Bytes) : ¬ Cut [] b := by
  rintro ⟨front,back,_,_,empty,_⟩
  cases front <;> contradiction

theorem cutNone (a : Bytes) : ¬ Cut a [] := by
  rintro ⟨_,_,front,back,_,empty,_⟩
  cases front <;> contradiction

theorem cutCons {c d : UInt8} {a b : Bytes} : Cut (c :: a) (d :: b) ↔ tolower c = tolower d ∧ (c = 0 ∨ Cut a b) := by
  constructor
  · rintro ⟨front,back,front',back',left,right,same⟩
    have length : front.length = front'.length := by simpa [lowered] using congrArg List.length same
    cases front with
    | nil =>
      cases front' with
      | nil =>
        cases left
        cases right
        exact ⟨rfl,.inl rfl⟩
      | cons e front' => contradiction
    | cons e front =>
      cases front' with
      | nil => contradiction
      | cons e' front' =>
        cases left
        cases right
        simp only [lowered,List.map_cons,List.cons.injEq] at same
        exact ⟨same.1,.inr ⟨front,back,front',back',rfl,rfl,same.2⟩⟩
  · rintro ⟨same,zero | ⟨front,back,front',back',rfl,rfl,equal⟩⟩
    · subst zero
      have other := tolowerZero.mp (same.symm.trans (tolowerZero.mpr rfl))
      subst other
      exact ⟨[],a,[],b,rfl,rfl,rfl⟩
    · refine ⟨c :: front,back,d :: front',back',rfl,rfl,?_⟩
      simp only [lowered,List.map_cons,same] at equal ⊢
      rw [equal]

theorem caseEqualTakes {n : Nat} {a b : Bytes} (left : n ≤ a.length) (right : n = b.length) :
    caseEqual n a b = true ↔ lowered (a.take n) = lowered b ∨ Cut a b := by
  subst right
  induction b generalizing a with
  | nil =>
    simp [caseEqual,lowered]
  | cons d b ih =>
    cases a with
    | nil => simp at left
    | cons c a =>
      have rest := ih (show b.length ≤ a.length by simpa using left)
      simp only [List.length_cons,caseEqual,Bool.and_eq_true,beq_iff_eq,Bool.or_eq_true,rest,cutCons,
        List.take_succ_cons,lowered,List.map_cons,List.cons.injEq,tolowerZero]
      tauto

theorem cutTerminated {a b : Bytes} : Cut (a ++ [lineFeed]) b ↔ Cut a b := by
  induction a generalizing b with
  | nil =>
    cases b with
    | nil => simp [cutNone]
    | cons d b => simp [cutCons,cutNil,lineFeed]
  | cons c a ih =>
    cases b with
    | nil => simp [cutNone]
    | cons d b => simp [cutCons,ih]

theorem loweredTerminated (k : Bytes) : lowered (k ++ [lineFeed]) = lowered k ++ [lineFeed] := by
  simp [lowered]
  decide

theorem loweredPrefix {p k : Bytes} : lowered (k.take p.length) = lowered p ↔ lowered p <+: lowered k := by
  rw [List.prefix_iff_eq_take,loweredLength,eq_comm]
  simp [lowered,List.map_take]

/- Two extra cases, of which the first excludes the wanted one, are harmless only
when the first is absent and the second is the wanted one as well. -/
theorem extraCases {wanted other more : Prop} (apart : other → ¬ wanted) :
    ((wanted ∨ other ∨ more ↔ wanted) ↔ ¬ other ∧ (more → wanted)) := by
  tauto

section selects
variable {target : Target} {entry : EntryKey}

theorem exactSelected (exact : target.exact = true) :
    (entry.count target.wanted = target.wanted ∧ target.selects entry = true) ↔
      entry.key = target.key ∨ target.key ++ [lineFeed] <+: entry.key := by
  have wanted : target.wanted = target.key.length + 1 := by simp [Target.wanted,exact]
  have counted : entry.count target.wanted = target.wanted ↔ target.key.length ≤ entry.key.length := by
    simp [EntryKey.count,wanted]
  have ends : (target.selects entry = true) ↔ target.key ++ [lineFeed] <+: entry.buffer := by
    simp only [Target.selects,wanted,exact,if_true,Bool.or_eq_true,beq_iff_eq,Bool.and_eq_true,
      Nat.add_eq_zero_iff,Nat.one_ne_zero,and_false,false_or]
    constructor
    · rintro ⟨newline,same⟩
      rw [List.prefix_iff_eq_take]
      simp only [List.length_append,List.length_singleton]
      rw [List.take_add_one,same,newline]
      rfl
    · rintro ⟨rest,same⟩
      rw [← same]
      simp
  rw [counted,ends,EntryKey.buffer,List.prefix_concat_iff]
  constructor
  · rintro ⟨_,whole | longer⟩
    · exact .inl (List.append_cancel_right whole).symm
    · exact .inr longer
  · rintro (same | longer)
    · exact ⟨by rw [same],.inl (by rw [same])⟩
    · exact ⟨by have := longer.length_le; simp at this; omega,.inr longer⟩

theorem prefixSelected (ranged : target.exact = false) :
    (entry.count target.wanted = target.wanted ∧ target.selects entry = true) ↔
      lowered target.key <+: lowered entry.key ∨ lowered target.key = lowered entry.key ++ [lineFeed] ∨
      (Cut entry.key target.key ∧ target.key.length ≤ entry.key.length + 1) := by
  have wanted : target.wanted = target.key.length := by simp [Target.wanted,ranged]
  have counted : entry.count target.wanted = target.wanted ↔ target.key.length ≤ entry.key.length + 1 := by
    simp [EntryKey.count,wanted]
  rw [counted]
  have compared (enough : target.key.length ≤ entry.key.length + 1) : target.selects entry = true ↔
      (lowered target.key = lowered entry.key ++ [lineFeed] ∨ lowered target.key <+: lowered entry.key) ∨
        Cut entry.key target.key := by
    have spec := caseEqualTakes (n := target.key.length) (a := entry.buffer) (b := target.key)
      (by simpa [EntryKey.buffer] using enough) rfl
    rw [loweredPrefix,EntryKey.buffer,cutTerminated,loweredTerminated,List.prefix_concat_iff] at spec
    simp only [Target.selects,wanted,ranged,Bool.false_eq_true,if_false,Bool.or_eq_true,beq_iff_eq]
    rw [← EntryKey.buffer] at spec
    rw [spec]
    constructor
    · rintro (empty | found)
      · have none : target.key = [] := List.length_eq_zero_iff.mp empty
        exact .inl (.inr (by rw [none]; exact List.nil_prefix))
      · exact found
    · exact .inr
  constructor
  · rintro ⟨enough,selected⟩
    rcases (compared enough).mp selected with (newline | found) | cut
    · exact .inr (.inl newline)
    · exact .inl found
    · exact .inr (.inr ⟨cut,enough⟩)
  · have lengths {x y : Bytes} (h : lowered x <+: y) : x.length ≤ y.length := by
      simpa using h.length_le
    rintro (found | newline | ⟨cut,enough⟩)
    · have enough := lengths found
      rw [loweredLength] at enough
      exact ⟨by omega,(compared (by omega)).mpr (.inl (.inr found))⟩
    · have enough : target.key.length = entry.key.length + 1 := by
        simpa using congrArg List.length newline
      exact ⟨by omega,(compared (by omega)).mpr (.inl (.inl newline))⟩
    · exact ⟨enough,(compared enough).mpr (.inr cut)⟩

end selects
end CachePurge
