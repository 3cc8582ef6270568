import CachePurge.GenerationHistory
import CachePurge.RefreshCollect
import CachePurge.SweepHistory

/-! The two readings of a selector: PURGE inserts it into the tries of a namespace,
REFRESH compares it with the logical keys of the files it comes by. -/
namespace CachePurge
open General

/- What the collector has established before it looks at the selector. -/
structure Offered (files : RefreshFiles) (after path : Bytes) (v : FileVisit) (z : Zone) (k : Bytes) : Prop where
  named : isCacheFile files.platform path = true
  unprotected : isProtectedPath files.walk path = false
  canonical : refreshCanonical files.cache path = true
  ahead : after < fileHash path
  zone : (files.seen path).1 = z
  current : ∃ entry, readKey files.native v.read path (files.seen path).2 = .ok entry ∧
    generationCurrent files.name z entry.key = (.ok,some k)

theorem offeredAdmits {files : RefreshFiles} {after path : Bytes} {v : FileVisit} {z : Zone} {k : Bytes}
    (offered : Offered files after path v z k) :
    (∃ found, refreshAdmit files after path v = .found found) ↔ refreshAccepts files.filter k = true := by
  obtain ⟨entry,read,current⟩ := offered.current
  have ahead : ¬ fileHash path ≤ after := not_le.mpr offered.ahead
  unfold refreshAdmit
  rw [offered.named,offered.unprotected,offered.canonical,read,offered.zone]
  simp only [Bool.not_true,Bool.or_self,Bool.false_eq_true,if_false,ahead,current]
  split
  · rename_i accepts
    exact ⟨fun _ => accepts,fun _ => ⟨_,rfl⟩⟩
  · rename_i refuses
    exact ⟨by rintro ⟨_,h⟩; contradiction,fun accepts => absurd accepts refuses⟩

theorem caseEqualDropLast {a b : Bytes} {d : UInt8} {n : Nat} (within : n ≤ b.length) :
    caseEqual n a (b ++ [d]) = caseEqual n a b := by
  induction n generalizing a b with
  | zero => rfl
  | succ n ih =>
    cases b with
    | nil => simp at within
    | cons e b =>
      cases a with
      | nil => rfl
      | cons c a =>
        simp only [List.cons_append,caseEqual]
        rw [ih (by simpa using within)]

theorem acceptsRanged {p k : Bytes} : refreshAccepts (p ++ [star]) k = true ↔
    lowered p <+: lowered k ∨ (Cut k p ∧ p.length ≤ k.length) := by
  have last : (p ++ [star]).getLast? = some star := by simp
  simp only [refreshAccepts,last,if_true,List.length_append,List.length_singleton,Nat.add_sub_cancel,
    Bool.and_eq_true,decide_eq_true_eq,caseEqualDropLast le_rfl]
  constructor
  · rintro ⟨enough,same⟩
    rcases (caseEqualTakes enough rfl).mp same with equal | cut
    · exact .inl (loweredPrefix.mp equal)
    · exact .inr ⟨cut,enough⟩
  · rintro (found | ⟨cut,enough⟩)
    · have enough : p.length ≤ k.length := by simpa using found.length_le
      exact ⟨enough,(caseEqualTakes enough rfl).mpr (.inl (loweredPrefix.mpr found))⟩
    · exact ⟨enough,(caseEqualTakes enough rfl).mpr (.inr cut)⟩

theorem acceptsExact {s k : Bytes} (unstarred : s.getLast? ≠ some star) : refreshAccepts s k = true ↔ s = k := by
  rw [refreshAccepts,if_neg unstarred,beq_iff_eq,eq_comm]

section asked
variable {call : Invalidation} (all : call.all = false) (unconditional : call.expected = none)
include all unconditional

theorem askedRanged {p : Bytes} (key : call.key = p ++ [star]) (k : Bytes) :
    call.asked.covers k ↔ lowered p <+: lowered k := by
  have ranged : call.ranged = true := by simp [Invalidation.ranged,unconditional,key]
  have selector : call.selector = p := by simp [Invalidation.selector,ranged,key]
  cases p with
  | nil => simp [Invalidation.asked,selector,Scope.covers,lowered]
  | cons c p => simp [Invalidation.asked,all,selector,ranged,Scope.covers,Invalidation.path]

omit unconditional in
theorem askedExact (unstarred : call.key.getLast? ≠ some star) (nonempty : call.key ≠ []) (k : Bytes) :
    call.asked.covers k ↔ call.key = k := by
  have plain : call.ranged = false := by simp [Invalidation.ranged,unstarred]
  have selector : call.selector = call.key := by simp [Invalidation.selector,plain]
  simp [Invalidation.asked,all,selector,plain,nonempty,Scope.covers,Invalidation.path]

end asked

theorem raisedAsked {name : Name} {call : Invalidation} {z : Zone} (bounded : z.shared.Bounded)
    (ok : (generationInvalidate name call z).1 = .ok) (allocated : call.refused z = false) (k : Bytes) :
    generationLookup z.shared k < generationLookup (generationInvalidate name call z).2.shared k ↔
      call.asked.covers k := by
  have accepted := invalidateAccepted bounded ok
  have scope : call.scope z = call.asked := by simp [Invalidation.scope,allocated]
  rw [accepted.lookup k,scope]
  split
  · rename_i covers
    have below := UInt64.le_iff_toNat_le.mp (lookupBounded bounded k)
    refine iff_of_true ?_ covers
    rw [UInt64.lt_iff_toNat_lt,accepted.serial]
    omega
  · rename_i apart
    exact iff_of_false (UInt64.lt_irrefl _) apart

/- PURGE and REFRESH read a selector the same way, unless it ends with a star and
its prefix shares a zero byte with the key, after which the two differ. -/
theorem selectorsAgree (name : Name) (epoch : Epoch) (calls : List Invalidation) (call : Invalidation)
    (files : RefreshFiles) (after path : Bytes) (v : FileVisit) (k : Bytes) :
    let z := (zoneMachine name).after (generationInit epoch) calls
    call.key ≠ [] → call.all = false → call.expected = none → (generationInvalidate name call z).1 = .ok →
    call.refused z = false → files.filter = call.key → Offered files after path v z k →
    ((generationLookup z.shared k < generationLookup (generationInvalidate name call z).2.shared k ↔
        ∃ found, refreshAdmit files after path v = .found found) ↔
      ¬ ∃ p, call.key = p ++ [star] ∧ Cut k p ∧ p.length ≤ k.length ∧ ¬ lowered p <+: lowered k) := by
  intro z nonempty all unconditional ok allocated filter offered
  rw [raisedAsked (runAgrees name epoch calls).bounded ok allocated,offeredAdmits offered,filter]
  rcases List.eq_nil_or_concat' call.key with empty | ⟨p,last,key⟩
  · exact absurd empty nonempty
  by_cases starred : last = star
  · subst starred
    rw [askedRanged all unconditional key,key,acceptsRanged]
    have only : (∃ p', p ++ [star] = p' ++ [star] ∧ Cut k p' ∧ p'.length ≤ k.length ∧ ¬ lowered p' <+: lowered k) ↔
        Cut k p ∧ p.length ≤ k.length ∧ ¬ lowered p <+: lowered k := by
      constructor
      · rintro ⟨p',same,rest⟩
        rw [← List.append_cancel_right same] at rest
        exact rest
      · exact fun rest => ⟨p,rfl,rest⟩
    rw [only]
    tauto
  · have unstarred : call.key.getLast? ≠ some star := by simpa [key] using starred
    rw [askedExact all unstarred nonempty,acceptsExact unstarred]
    refine iff_of_true Iff.rfl ?_
    rintro ⟨p',same,_⟩
    rw [same] at unstarred
    simp at unstarred

section selectors

def siteRefresh (filter logical : Bytes) : RefreshFiles where
  platform := posix
  native := siteNative
  name := siteName
  cache := ⟨[47,99],[],by decide,by decide⟩
  protection := []
  filter := filter
  tree := siteTree
  seen _ := (generationInit siteEpoch,siteEntry (generationEncode siteName siteEpoch 1 logical))

def purgeOf (key : Bytes) : Invalidation := ⟨key,false,none,true,List.range' 1 key.length |>.map some⟩

def siteVisit : FileVisit := ⟨.ok,wellRead,.ok⟩

theorem siteOffered (filter logical : Bytes) (current : ((readKey siteNative wellRead sitePath
    (siteEntry (generationEncode siteName siteEpoch 1 logical))).toOption.map fun entry =>
      generationCurrent siteName (generationInit siteEpoch) entry.key) = some (.ok,some logical)) :
    Offered (siteRefresh filter logical) [] sitePath siteVisit (generationInit siteEpoch) logical := by
  have named : isCacheFile posix sitePath = true := by decide +kernel
  have unprotected : isProtectedPath ⟨posix,[47,99],[]⟩ sitePath = false := by decide +kernel
  have canonical : refreshCanonical ⟨[47,99],[],by decide,by decide⟩ sitePath = true := by decide +kernel
  exact ⟨named,unprotected,canonical,by decide +kernel,rfl,readMapped current⟩

theorem selectorsAgreeSite :
    generationLookup (generationInit siteEpoch).shared [47,65,98] <
        generationLookup (generationInvalidate siteName (purgeOf [47,97,star])
          (generationInit siteEpoch)).2.shared [47,65,98] ↔
      ∃ found, refreshAdmit (siteRefresh [47,97,star] [47,65,98]) [] sitePath siteVisit = .found found := by
  refine (selectorsAgree siteName siteEpoch [] (purgeOf [47,97,star]) (siteRefresh [47,97,star] [47,65,98]) []
    sitePath siteVisit [47,65,98] (by decide) rfl rfl (by decide +kernel) (by decide +kernel) rfl
    (siteOffered _ _ (by decide +kernel))).mpr ?_
  rintro ⟨p,key,_,_,apart⟩
  have same : p = [47,97] := (List.append_cancel_right (show [47,97] ++ [star] = p ++ [star] from key)).symm
  exact apart (by rw [same]; decide)

theorem selectorsAgreeZero :
    (generationInvalidate siteName (purgeOf [47,0,98,star]) (generationInit siteEpoch)).1 = .ok ∧
    (purgeOf [47,0,98,star]).refused (generationInit siteEpoch) = false ∧
    Offered (siteRefresh [47,0,98,star] [47,0,99]) [] sitePath siteVisit (generationInit siteEpoch) [47,0,99] ∧
    ¬ (generationLookup (generationInit siteEpoch).shared [47,0,99] <
        generationLookup (generationInvalidate siteName (purgeOf [47,0,98,star])
          (generationInit siteEpoch)).2.shared [47,0,99] ↔
      ∃ found, refreshAdmit (siteRefresh [47,0,98,star] [47,0,99]) [] sitePath siteVisit = .found found) := by
  have offered := siteOffered [47,0,98,star] [47,0,99] (by decide +kernel)
  refine ⟨by decide +kernel,by decide +kernel,offered,fun same => ?_⟩
  have kept : ¬ generationLookup (generationInit siteEpoch).shared [47,0,99] <
      generationLookup (generationInvalidate siteName (purgeOf [47,0,98,star])
        (generationInit siteEpoch)).2.shared [47,0,99] := by decide +kernel
  exact kept (same.mpr ((offeredAdmits offered).mpr (by decide +kernel)))

end selectors
end CachePurge
