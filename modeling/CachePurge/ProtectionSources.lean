import Mathlib.Data.List.Forall2
import CachePurge.PathProtection

/-! The two places that ngx_http_cache_purge_is_protected_path reads the protected
paths from: the snapshot that ngx_http_cache_purge_protection_get keeps in the zone,
and the configured paths themselves where there is no zone. -/
namespace CachePurge

/- ngx_path_t, with whether each callback is set. -/
structure PathEntry where
  name : Bytes
  manager : Bool
  loader : Bool
  deriving DecidableEq, Repr

def temporaryNames (paths : List PathEntry) : List Bytes :=
  (paths.filter fun p => !(p.manager || p.loader)).map PathEntry.name

structure ProtectionCtx where
  platform : Platform
  cacheRoot : Bytes
  protection : Option (List Bytes)
  paths : Option (List PathEntry)

def ProtectionCtx.names (ctx : ProtectionCtx) : List Bytes :=
  match ctx.protection with
  | some names => names
  | none => match ctx.paths with
    | some paths => temporaryNames paths
    | none => []

def ProtectionCtx.isProtectedPath (ctx : ProtectionCtx) (path : Bytes) : Bool :=
  CachePurge.isProtectedPath ⟨ctx.platform,ctx.cacheRoot,ctx.names⟩ path

/- The sizes of a build: the snapshot's record, one ngx_str_t and the largest size_t. -/
structure ProtectionSizes where
  record : Nat
  str : Nat
  most : Nat

def protectionSize (platform : Platform) (sizes : ProtectionSizes) : List Bytes → Nat → Option Nat
  | [],size => some size
  | name :: rest,size =>
    let len := pathLength platform name
    if sizes.most - sizes.str - 1 < len || sizes.most - sizes.str - len - 1 < size then none
    else protectionSize platform sizes rest (size + (sizes.str + len + 1))

def sameProtection (platform : Platform) : List Bytes → List Bytes → Bool
  | [],[] => true
  | kept :: names,name :: rest =>
    kept.length == pathLength platform name && pathEqual platform kept name (pathLength platform name) &&
      sameProtection platform names rest
  | _,_ => false

def protectionGet (platform : Platform) (sizes : ProtectionSizes) (room : Nat → Bool) (protections : List (List Bytes))
    (paths : List PathEntry) : Option (List Bytes × List (List Bytes)) :=
  match protectionSize platform sizes (temporaryNames paths) sizes.record with
  | none => none
  | some size =>
    match protections.find? (sameProtection platform · (temporaryNames paths)) with
    | some names => some (names,protections)
    | none =>
      if room size then
        let names := (temporaryNames paths).map fun name => name.take (pathLength platform name)
        some (names,names :: protections)
      else none

def Copied (platform : Platform) (kept name : Bytes) : Prop := ∃ left, Stripped platform name left ∧ Alike platform kept left

def Under (platform : Platform) (root name : Bytes) : Prop :=
  Inside platform name root ∧
  ∃ left kept, Stripped platform root left ∧ Stripped platform name kept ∧ left.length < kept.length

def RootAgain (platform : Platform) (root name : Bytes) : Prop :=
  ∃ left kept, Stripped platform root left ∧ Stripped platform name kept ∧ left ≠ [] ∧ Alike platform kept left ∧
    left.length < name.length

section copies
variable {platform : Platform} {name root path kept left : Bytes}

theorem sameCopies {names temps : List Bytes} (same : sameProtection platform names temps = true) :
    List.Forall₂ (Copied platform) names temps := by
  induction names generalizing temps with
  | nil =>
    cases temps with
    | nil => exact .nil
    | cons name rest => contradiction
  | cons kept names ih =>
    cases temps with
    | nil => contradiction
    | cons name rest =>
      rw [sameProtection,Bool.and_eq_true,Bool.and_eq_true,beq_iff_eq,pathEqual,beq_iff_eq] at same
      obtain ⟨⟨long,equal⟩,others⟩ := same
      rw [← long,List.take_length,long] at equal
      exact .cons ⟨_,strippedTake,equal⟩ (ih others)

theorem freshCopies (temps : List Bytes) :
    List.Forall₂ (Copied platform) (temps.map fun name => name.take (pathLength platform name)) temps := by
  induction temps with
  | nil => exact .nil
  | cons name rest ih => exact .cons ⟨_,strippedTake,rfl⟩ ih

theorem getCopies {sizes : ProtectionSizes} {room : Nat → Bool} {protections later : List (List Bytes)} {paths : List PathEntry}
    {names : List Bytes} (got : protectionGet platform sizes room protections paths = some (names,later)) :
    List.Forall₂ (Copied platform) names (temporaryNames paths) := by
  unfold protectionGet at got
  split at got
  · contradiction
  · split at got
    · rename_i found
      obtain ⟨rfl,_⟩ := Prod.mk.inj (Option.some.inj got)
      exact sameCopies (List.find?_some (p := (sameProtection platform · (temporaryNames paths))) found)
    · split at got
      · obtain ⟨rfl,_⟩ := Prod.mk.inj (Option.some.inj got)
        exact freshCopies _
      · contradiction

theorem relatedIn {α β : Type} {related : α → β → Prop} {as : List α} {bs : List β} (each : List.Forall₂ related as bs)
    {a : α} (listed : a ∈ as) : ∃ b ∈ bs, related a b := by
  induction each with
  | nil => contradiction
  | cons first others ih =>
    rcases List.mem_cons.mp listed with rfl | listed
    · exact ⟨_,List.mem_cons_self,first⟩
    · obtain ⟨b,listed,relates⟩ := ih listed
      exact ⟨b,List.mem_cons_of_mem _ listed,relates⟩

theorem strippedPositive (lawful : platform.Lawful) (stripped : Stripped platform name left) (some_ : name ≠ []) :
    left ≠ [] ∧ platform.minLength name ≤ left.length := by
  obtain ⟨seps,split_,_,kept⟩ := stripped.rest
  have positive := lawful.positive name
  have fits := lawful.fits name some_
  have enough : platform.minLength name ≤ left.length := by
    rcases kept with rfl | enough
    · rwa [split_,List.append_nil] at fits ⊢
    · exact enough
  refine ⟨?_,enough⟩
  rintro rfl
  simp at enough
  omega

theorem copyStripped (lawful : platform.Lawful) (stripped : Stripped platform name left) (alike : Alike platform kept left) :
    Stripped platform kept kept := by
  refine ⟨⟨[],by simp,by simp,.inl rfl⟩,?_⟩
  have long := alikeLength alike
  rcases stripped.stops with short | plain
  · left
    by_cases some_ : name = []
    · obtain ⟨seps,split_,_⟩ := stripped.rest
      rw [some_] at split_
      rw [long,(List.append_eq_nil_iff.mp split_.symm).1]
      exact Nat.zero_le _
    · obtain ⟨_,enough⟩ := strippedPositive lawful stripped some_
      obtain ⟨seps,split_,_⟩ := stripped.rest
      have start : name.take (platform.minLength name) = left.take (platform.minLength name) := by
        rw [split_,List.take_append_of_le_length (by rwa [← split_])]
      have roots := lawful.roots kept name (by omega) (lawful.fits name some_) (by
        rw [start]
        exact alikeTake alike _)
      omega
  · exact .inr (by rw [alikeLast lawful alike,plain])

theorem insideSpelled (lawful : platform.Lawful) {a b : Bytes} (first : Stripped platform a kept)
    (second : Stripped platform b left) (alike : Alike platform kept left) (inside : Inside platform path a) :
    Inside platform path b := by
  obtain ⟨own,front,rest,stripped,some_,rfl,same,goes⟩ := inside
  cases strippedUnique stripped first
  refine ⟨left,front,rest,second,fun none_ => ?_,rfl,same.trans alike,?_⟩
  · rw [none_] at alike
    exact some_ (List.map_eq_nil_iff.mp alike)
  · rwa [← alikeLast lawful alike]

theorem insideItself (lawful : platform.Lawful) (some_ : name ≠ []) : Inside platform name name := by
  obtain ⟨seps,split_,separators,_⟩ := (@strippedTake platform name).rest
  refine ⟨_,_,seps,strippedTake,(strippedPositive lawful strippedTake some_).1,split_,rfl,?_⟩
  cases seps with
  | nil => exact .inl rfl
  | cons c seps => exact .inr (.inr (separators c List.mem_cons_self))

theorem insideNamed (inside : Inside platform path root) : path ≠ [] ∧ root ≠ [] := by
  obtain ⟨own,front,rest,stripped,some_,rfl,same,_⟩ := inside
  obtain ⟨seps,rfl,_⟩ := stripped.rest
  refine ⟨fun none_ => some_ ?_,fun none_ => some_ (List.append_eq_nil_iff.mp none_).1⟩
  rw [(List.append_eq_nil_iff.mp none_).1] at same
  exact List.map_eq_nil_iff.mp same.symm

theorem copyInside (lawful : platform.Lawful) (copied : Copied platform kept name) :
    (∀ path, Inside platform path kept ↔ Inside platform path name) ∧
    (∀ root, Inside platform kept root ↔ Inside platform name root) := by
  obtain ⟨left,stripped,alike⟩ := copied
  have own := copyStripped lawful stripped alike
  have same (path : Bytes) : Inside platform path kept ↔ Inside platform path name :=
    ⟨insideSpelled lawful own stripped alike,insideSpelled lawful stripped own alike.symm⟩
  refine ⟨same,fun root => ⟨fun within => ?_,fun within => ?_⟩⟩
  · refine insideTrans lawful ((same name).mpr (insideItself lawful ?_)) within
    rintro rfl
    obtain ⟨seps,split_,_⟩ := stripped.rest
    rw [(List.append_eq_nil_iff.mp split_.symm).1] at alike
    exact (insideNamed within).1 (List.map_eq_nil_iff.mp alike)
  · refine insideTrans lawful ((same kept).mp (insideItself lawful ?_)) within
    rintro rfl
    have some_ := (strippedPositive lawful stripped (insideNamed within).1).1
    exact some_ (List.map_eq_nil_iff.mp alike.symm)

theorem longerInside (lawful : platform.Lawful) (stripped : Stripped platform root left) (within : Inside platform name root)
    (longer : left.length < name.length) : Under platform root name ∨ RootAgain platform root name := by
  have within' := within
  obtain ⟨own,front,rest,own',some_,split_,alike,_⟩ := within'
  cases strippedUnique own' stripped
  have long := alikeLength alike
  have own := @strippedTake platform name
  have further := strippedWithin lawful stripped some_ alike (by rwa [← split_])
  by_cases below : left.length < (name.take (pathLength platform name)).length
  · exact .inl ⟨within,_,_,stripped,own,below⟩
  · refine .inr ⟨_,_,stripped,own,some_,?_,longer⟩
    obtain ⟨seps,whole,_⟩ := own.rest
    have same := (List.append_inj (whole.symm.trans split_) (by omega)).1
    rwa [same]

theorem underLonger (under : Under platform root name) (stripped : Stripped platform root left) :
    left.length < name.length := by
  obtain ⟨_,own,kept,own',other,longer⟩ := under
  cases strippedUnique own' stripped
  obtain ⟨seps,split_,_⟩ := other.rest
  have lengths := congrArg List.length split_
  rw [List.length_append] at lengths
  omega

theorem againInside (lawful : platform.Lawful) (again : RootAgain platform root name) :
    Inside platform name root ∧ ∀ path, Inside platform path root → Inside platform path name := by
  obtain ⟨left,kept,stripped,own,some_,alike,longer⟩ := again
  refine ⟨insideSpelled lawful own stripped alike (insideItself lawful ?_),
    fun path => insideSpelled lawful stripped own alike.symm⟩
  rintro rfl
  simp at longer

theorem rootOutside (lawful : platform.Lawful) (under : Under platform root name) : ¬ Inside platform root name := by
  intro inside
  obtain ⟨_,left,kept,stripped,own,longer⟩ := under
  obtain ⟨other,front,rest,own',some_,rfl,alike,_⟩ := inside
  cases strippedUnique own' own
  have shorter := strippedWithin lawful own some_ alike stripped
  omega

end copies

section sources
variable {platform : Platform} {root path : Bytes}

theorem protectedDirect (lawful : platform.Lawful) (temps : List Bytes) :
    Protected ⟨platform,root,temps⟩ path ↔ ¬ Inside platform path root ∨
      (∃ name ∈ temps, Under platform root name ∧ Inside platform path name) ∨
      ∃ name ∈ temps, RootAgain platform root name := by
  constructor
  · rintro (outside | ⟨name,listed,⟨left,stripped,longer⟩,within,inside⟩)
    · exact .inl outside
    · rcases longerInside lawful stripped within longer with under | again
      · exact .inr (.inl ⟨name,listed,under,inside⟩)
      · exact .inr (.inr ⟨name,listed,again⟩)
  · rintro (outside | ⟨name,listed,under,inside⟩ | ⟨name,listed,again⟩)
    · exact .inl outside
    · exact .inr ⟨name,listed,⟨_,strippedTake,underLonger under strippedTake⟩,under.1,inside⟩
    · by_cases inside : Inside platform path root
      · obtain ⟨within,all⟩ := againInside lawful again
        obtain ⟨left,_,stripped,_,_,_,longer⟩ := again
        exact .inr ⟨name,listed,⟨left,stripped,longer⟩,within,all path inside⟩
      · exact .inl inside

theorem protectedCopies (lawful : platform.Lawful) {names temps : List Bytes}
    (copies : List.Forall₂ (Copied platform) names temps) :
    Protected ⟨platform,root,names⟩ path ↔ ¬ Inside platform path root ∨
      ∃ name ∈ temps, Under platform root name ∧ Inside platform path name := by
  have under {kept name : Bytes} (copied : Copied platform kept name) :
      (∃ left, Stripped platform root left ∧ left.length < kept.length) ∧ Inside platform kept root ↔
        Under platform root name := by
    obtain ⟨_,within⟩ := copyInside lawful copied
    obtain ⟨own,stripped,alike⟩ := copied
    rw [within,and_comm]
    refine and_congr_right fun _ => ⟨?_,?_⟩
    · rintro ⟨left,other,longer⟩
      exact ⟨left,own,other,stripped,by rwa [← alikeLength alike]⟩
    · rintro ⟨left,kept',other,stripped',longer⟩
      cases strippedUnique stripped' stripped
      exact ⟨left,other,by rwa [alikeLength alike]⟩
  refine or_congr Iff.rfl ⟨?_,?_⟩
  · rintro ⟨kept,listed,longer,within,inside⟩
    obtain ⟨name,listed',copied⟩ := relatedIn copies listed
    exact ⟨name,listed',(under copied).mp ⟨longer,within⟩,(copyInside lawful copied).1 path |>.mp inside⟩
  · rintro ⟨name,listed,below,inside⟩
    obtain ⟨kept,listed',copied⟩ := relatedIn (List.Forall₂.flip (R := flip (Copied platform)) copies) listed
    obtain ⟨longer,within⟩ := (under copied).mpr below
    exact ⟨kept,listed',longer,within,(copyInside lawful copied).1 path |>.mpr inside⟩

end sources

/- The sources differ on a path exactly when the array names the root again and the
path is inside the root and in no directory below it: the snapshot has dropped the
separators that make the name longer than the root, the array has not. -/
theorem sourcesAgree (model : PathModel) (sizes : ProtectionSizes) (room : Nat → Bool) (protections : List (List Bytes))
    (paths : List PathEntry) (names : List Bytes) (later : List (List Bytes))
    (got : protectionGet model.platform sizes room protections paths = some (names,later)) (root : Bytes) :
    let snapshot : ProtectionCtx := ⟨model.platform,root,some names,some paths⟩
    let direct : ProtectionCtx := ⟨model.platform,root,none,some paths⟩
    let again := ∃ name ∈ temporaryNames paths, RootAgain model.platform root name
    (∀ path, snapshot.isProtectedPath path = direct.isProtectedPath path ↔
      ¬ again ∨ ¬ Inside model.platform path root ∨
        ∃ name ∈ temporaryNames paths, Under model.platform root name ∧ Inside model.platform path name) ∧
    ((∀ path, snapshot.isProtectedPath path = direct.isProtectedPath path) ↔ ¬ again) := by
  intro snapshot direct again
  have lawful := modelLawful model
  have exact_ (path : Bytes) : snapshot.isProtectedPath path = direct.isProtectedPath path ↔
      ¬ again ∨ ¬ Inside model.platform path root ∨
        ∃ name ∈ temporaryNames paths, Under model.platform root name ∧ Inside model.platform path name := by
    have kept : snapshot.isProtectedPath path = true ↔ _ :=
      (protectedIff _ path).trans (protectedCopies lawful (getCopies got))
    have listed : direct.isProtectedPath path = true ↔ _ :=
      (protectedIff _ path).trans (protectedDirect lawful (temporaryNames paths))
    rw [Bool.eq_iff_iff,kept,listed]
    constructor
    · intro same
      by_cases repeated : again
      · exact .inr (same.mpr (.inr (.inr repeated)))
      · exact .inl repeated
    · intro agrees
      refine ⟨fun holds => holds.imp id .inl,fun holds => ?_⟩
      rcases holds with outside | below | twice
      · exact .inl outside
      · exact .inr below
      · exact agrees.resolve_left (not_not_intro twice)
  refine ⟨exact_,fun same repeated => ?_,fun none_ path => (exact_ path).mpr (.inl none_)⟩
  have twice := repeated
  obtain ⟨name,_,left,_,stripped,_,some_,_⟩ := twice
  have named : root ≠ [] := by
    rintro rfl
    obtain ⟨seps,split_,_⟩ := stripped.rest
    exact some_ (List.append_eq_nil_iff.mp split_.symm).1
  rcases (exact_ root).mp (same root) with none_ | outside | ⟨other,_,under,inside⟩
  · exact none_ repeated
  · exact outside (insideItself lawful named)
  · exact rootOutside lawful under inside

theorem sourcesAgreeNested :
    let paths : List PathEntry := [⟨[47,99],true,true⟩,⟨[47,99,47,116,47],false,false⟩]
    let snapshot : ProtectionCtx := ⟨posix,[47,99],some [[47,99,47,116]],some paths⟩
    let direct : ProtectionCtx := ⟨posix,[47,99],none,some paths⟩
    ∀ path, snapshot.isProtectedPath path = direct.isProtectedPath path := by
  intro paths snapshot direct
  have got : protectionGet PathModel.posix.platform ⟨24,16,2 ^ 64 - 1⟩ (fun _ => true) [] paths =
      some ([[47,99,47,116]],[[[47,99,47,116]]]) := by decide
  refine (sourcesAgree .posix _ _ _ _ _ _ got [47,99]).2.mpr ?_
  rintro ⟨name,listed,left,kept,stripped,own,_,alike,_⟩
  rw [List.mem_singleton.mp listed] at own
  have root : left = [47,99] := strippedUnique stripped strippedTake
  have below : kept = [47,99,47,116] := strippedUnique own strippedTake
  rw [root,below] at alike
  exact absurd (alikeLength alike) (by decide)

theorem sourcesDiffer :
    let paths : List PathEntry := [⟨[47,99],true,true⟩,⟨[47,99,47],false,false⟩]
    let snapshot : ProtectionCtx := ⟨posix,[47,99],some [[47,99]],some paths⟩
    let direct : ProtectionCtx := ⟨posix,[47,99],none,some paths⟩
    protectionGet posix ⟨24,16,2 ^ 64 - 1⟩ (fun _ => true) [] paths = some ([[47,99]],[[[47,99]]]) ∧
    ¬ (snapshot.isProtectedPath [47,99,47,97] = direct.isProtectedPath [47,99,47,97]) := by
  decide

end CachePurge
