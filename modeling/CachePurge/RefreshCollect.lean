import CachePurge.General.Batches
import CachePurge.Refresh
import CachePurge.WalkTree

/-! The scan of a REFRESH page: ngx_http_cache_refresh_collect as the visitor of a
walk. What it meets at a path, the namespace at that moment and the bytes of the
file, is one answer of the environment for each path. -/
namespace CachePurge
open General

instance bytesOrder : LinearOrder Bytes where
  le_refl := List.le_refl
  le_trans _ _ _ := List.le_trans
  le_antisymm _ _ := List.le_antisymm
  le_total := List.le_total
  lt_iff_le_not_ge a b := by
    rw [← List.not_lt,List.not_le,iff_and_self]
    exact fun less more => absurd (List.lt_trans less more) (List.lt_irrefl a)
  toDecidableLE := inferInstance
  toDecidableLT := inferInstance
  toDecidableEq := inferInstance
  compare a b := compareOfLessAndEq a b
  compare_eq_compareOfLessAndEq _ _ := rfl

/- A cache directory as core configures it, with the widths of its levels. -/
structure CachePath where
  name : Bytes
  levels : List Nat
  few : levels.length ≤ 3
  widths : ∀ level ∈ levels, level = 1 ∨ level = 2

def CachePath.len (path : CachePath) : Nat := (path.levels.map (· + 1)).sum

/- The scan of one page: its configuration, and what the walk and the reader meet. -/
structure RefreshFiles where
  platform : Platform
  native : Native
  name : Name
  cache : CachePath
  protection : List Bytes
  filter : Bytes
  tree : Tree
  seen : Bytes → Zone × Bytes

def RefreshFiles.walk (files : RefreshFiles) : WalkConf := ⟨files.platform,files.cache.name,files.protection⟩

def refreshBatch : Nat := 32

def levelsMatch (path hash : Bytes) : List Nat → Nat → Nat → Bool
  | [], _, _ => true
  | level :: rest, offset, tail =>
    (path.drop offset).take level == (hash.drop (tail - level)).take level &&
      path[offset + level]? == some slash && levelsMatch path hash rest (offset + level + 1) (tail - level)

def fileHash (path : Bytes) : Bytes := path.drop (path.length - 32)

def refreshCanonical (cache : CachePath) (path : Bytes) : Bool :=
  path.length == cache.name.length + 1 + cache.len + 32 &&
    levelsMatch path (fileHash path) cache.levels (cache.name.length + 1) 32

def refreshAccepts (filter logical : Bytes) : Bool :=
  if filter.getLast? = some star then
    filter.length - 1 ≤ logical.length && caseEqual (filter.length - 1) logical filter
  else logical == filter

inductive Admission where
  | passed | failed
  | found (found : Found)
  deriving DecidableEq, Repr

section collect
variable (files : RefreshFiles) (after : Bytes)

/- ngx_http_cache_refresh_collect up to the search for a place. -/
def refreshAdmit (path : Bytes) (v : FileVisit) : Admission :=
  if !isCacheFile files.platform path || isProtectedPath files.walk path || !refreshCanonical files.cache path then
    .passed
  else if fileHash path ≤ after then .passed
  else match readKey files.native v.read path (files.seen path).2 with
    | .error rc => if rc = .error then .failed else .passed
    | .ok entry => match generationCurrent files.name (files.seen path).1 entry.key with
      | (.ok,some logical) =>
        if refreshAccepts files.filter logical then .found ⟨fileHash path,entry.key,entry.header⟩ else .passed
      | _ => .passed

def refreshCollect : Visitor (Batch Found) := fun path v batch =>
  match refreshAdmit files after path v with
  | .passed => (false,batch)
  | .failed => (true,batch)
  | .found found => (false,batch.add Found.hash refreshBatch found)

def refreshSlices (starts : Nat → UInt64) (clocks : Nat → Nat → UInt64) (calls : Nat) : WalkCall (Batch Found) :=
  walkCalls files.walk files.tree (refreshCollect files after) walkEntries starts clocks calls 0 idleCursor .empty

end collect

def WalkCall.scanned (call : WalkCall (Batch Found)) : ScanAnswer := ⟨call.rc,call.state.items,call.state.more⟩

section canonical
variable {cache : CachePath} {path path' : Bytes}

def levelsOf (hash : Bytes) : List Nat → Nat → Bytes
  | [], _ => []
  | level :: rest, tail => (hash.drop (tail - level)).take level ++ slash :: levelsOf hash rest (tail - level)

theorem levelsMatched {hash : Bytes} {levels : List Nat} {offset tail : Nat}
    (same : levelsMatch path hash levels offset tail = true) :
    (path.drop offset).take (levels.map (· + 1)).sum = levelsOf hash levels tail := by
  induction levels generalizing offset tail with
  | nil => simp [levelsOf]
  | cons level rest ih =>
    simp only [levelsMatch,Bool.and_eq_true,beq_iff_eq] at same
    obtain ⟨⟨name,separator⟩,later⟩ := same
    have next := ih later
    have one : (path.drop (offset + level)).take 1 = [slash] := by
      rw [List.take_one,List.head?_drop,separator]
      rfl
    rw [List.map_cons,List.sum_cons,List.take_add,List.take_add,name,List.drop_drop,one,List.drop_drop,
      ← Nat.add_assoc,next]
    simp [levelsOf]

theorem canonicalSpelled (canonical : refreshCanonical cache path = true) (below : Below cache.name path) :
    path = cache.name ++ slash :: (levelsOf (fileHash path) cache.levels 32 ++ fileHash path) := by
  simp only [refreshCanonical,Bool.and_eq_true,beq_iff_eq] at canonical
  obtain ⟨length,same⟩ := canonical
  obtain ⟨rest,rfl⟩ := below
  have middle := levelsMatched same
  have root : (cache.name ++ slash :: rest).drop (cache.name.length + 1) = rest := by
    rw [show cache.name ++ slash :: rest = (cache.name ++ [slash]) ++ rest by simp]
    exact List.drop_left' (by simp)
  rw [root] at middle
  have size : rest.length = cache.len + 32 := by
    simp only [List.length_append,List.length_cons] at length
    omega
  have tail : fileHash (cache.name ++ slash :: rest) = rest.drop cache.len := by
    unfold fileHash
    rw [show (cache.name ++ slash :: rest).length - 32 = (cache.name.length + 1) + cache.len by
      simp only [List.length_append,List.length_cons]
      omega,← List.drop_drop,root]
  rw [← middle,tail]
  change _ = cache.name ++ slash :: (rest.take cache.len ++ rest.drop cache.len)
  rw [List.take_append_drop]

theorem canonicalSame (canonical : refreshCanonical cache path = true) (below : Below cache.name path)
    (canonical' : refreshCanonical cache path' = true) (below' : Below cache.name path')
    (same : fileHash path = fileHash path') : path = path' := by
  rw [canonicalSpelled canonical below,canonicalSpelled canonical' below',same]

end canonical
section scan
variable {files : RefreshFiles} {after path : Bytes} {v : FileVisit}

structure Admits (files : RefreshFiles) (path : Bytes) (v : FileVisit) : Prop where
  named : isCacheFile files.platform path = true
  unprotected : isProtectedPath files.walk path = false
  canonical : refreshCanonical files.cache path = true
  read : ∃ entry logical, readKey files.native v.read path (files.seen path).2 = .ok entry ∧
    generationCurrent files.name (files.seen path).1 entry.key = (.ok,some logical) ∧
    refreshAccepts files.filter logical = true

theorem readMapped {ε α β : Type} {answer : Except ε α} {f : α → β} {x : β} (mapped : answer.toOption.map f = some x) :
    ∃ a, answer = .ok a ∧ f a = x := by
  cases answer with
  | error _ => contradiction
  | ok a => exact ⟨a,rfl,Option.some.inj mapped⟩

theorem admitFound {found : Found} (admitted : refreshAdmit files after path v = .found found) :
    Admits files path v ∧ after < fileHash path ∧ found.hash = fileHash path := by
  unfold refreshAdmit at admitted
  split at admitted
  · contradiction
  rename_i open_
  simp only [Bool.or_eq_true,Bool.not_eq_true',not_or,Bool.not_eq_true,Bool.not_eq_false] at open_
  split at admitted
  · contradiction
  rename_i ahead
  split at admitted
  · split at admitted <;> contradiction
  rename_i entry read
  split at admitted
  · rename_i logical current
    split at admitted
    · rename_i accepts
      cases admitted
      exact ⟨⟨open_.1.1,open_.1.2,open_.2,entry,logical,read,current,accepts⟩,not_le.mp ahead,rfl⟩
    · contradiction
  · contradiction

theorem foundAdmits (admits : Admits files path v) (ahead : after < fileHash path) :
    ∃ found, refreshAdmit files after path v = .found found ∧ found.hash = fileHash path := by
  obtain ⟨entry,logical,read,current,accepts⟩ := admits.read
  refine ⟨⟨fileHash path,entry.key,entry.header⟩,?_,rfl⟩
  unfold refreshAdmit
  rw [admits.named,admits.unprotected,admits.canonical,read]
  simp [not_le.mpr ahead,current,accepts]

def refreshFound (files : RefreshFiles) (after : Bytes) (x : Bytes × FileVisit) : Option Found :=
  match refreshAdmit files after x.1 x.2 with
  | .found found => some found
  | _ => none

theorem foundIff {x : Bytes × FileVisit} {found : Found} :
    refreshFound files after x = some found ↔ refreshAdmit files after x.1 x.2 = .found found := by
  unfold refreshFound
  split
  · rename_i found' same
    rw [same]
    simp
  · rename_i other
    exact ⟨nofun,fun same => absurd same (other found)⟩

theorem collectAll (visits : List (Bytes × FileVisit)) (batch : Batch Found) :
    (visitAll (refreshCollect files after) visits batch).2 =
      batch.addAll Found.hash refreshBatch (visits.filterMap (refreshFound files after)) := by
  induction visits generalizing batch with
  | nil => rfl
  | cons x rest ih =>
    simp only [visitAll,ih]
    unfold refreshCollect
    cases admitted : refreshAdmit files after x.1 x.2 with
    | found found =>
      rw [List.filterMap_cons_some (foundIff.mpr admitted)]
      rfl
    | passed =>
      have none : refreshFound files after x = none := by simp [refreshFound,admitted]
      rw [List.filterMap_cons_none none]
    | failed =>
      have none : refreshFound files after x = none := by simp [refreshFound,admitted]
      rw [List.filterMap_cons_none none]

def RefreshFiles.visits (files : RefreshFiles) : List (Bytes × FileVisit) :=
  files.tree.visits (isProtectedPath files.walk) files.cache.name

def RefreshFiles.Holds (files : RefreshFiles) (members : Finset Bytes) : Prop :=
  ∀ hash, hash ∈ members ↔ ∃ path v, (path,v) ∈ files.visits ∧ Admits files path v ∧ fileHash path = hash

section files
variable (proper : files.tree.listing.Proper)
include proper

theorem foundDistinct : ((files.visits.filterMap (refreshFound files after)).map Found.hash).Nodup := by
  have paths : (files.visits.map Prod.fst).Nodup := by
    unfold RefreshFiles.visits Tree.visits
    split
    · exact visitsNodup proper
    · exact .nil
  have below {x : Bytes × FileVisit} (member : x ∈ files.visits) : Below files.cache.name x.1 := by
    unfold RefreshFiles.visits Tree.visits at member
    split at member
    · exact visitsBelow member
    · simp at member
  rw [List.Nodup,List.pairwise_map,List.pairwise_filterMap]
  refine (List.pairwise_map.mp paths).imp_of_mem fun {x y} first second apart found here found' there => ?_
  obtain ⟨admits,_,hash⟩ := admitFound (foundIff.mp here)
  obtain ⟨admits',_,hash'⟩ := admitFound (foundIff.mp there)
  rw [hash,hash']
  exact fun same => apart (canonicalSame admits.canonical (below first) admits'.canonical (below second) same)

variable {members : Finset Bytes} (holds : files.Holds members)
include holds

omit proper in
theorem foundMembers : ((files.visits.filterMap (refreshFound files after)).map Found.hash).toFinset =
    members.filter (after < ·) := by
  ext hash
  simp only [List.mem_toFinset,List.mem_map,List.mem_filterMap,Finset.mem_filter,holds hash]
  constructor
  · rintro ⟨found,⟨x,member,here⟩,rfl⟩
    obtain ⟨admits,ahead,same⟩ := admitFound (foundIff.mp here)
    rw [same]
    exact ⟨⟨x.1,x.2,member,admits,rfl⟩,ahead⟩
  · rintro ⟨⟨path,v,member,admits,rfl⟩,ahead⟩
    obtain ⟨found,here,same⟩ := foundAdmits admits ahead
    exact ⟨found,⟨(path,v),member,foundIff.mpr here⟩,same⟩

theorem slicesScanned {starts : Nat → UInt64} {clocks : Nat → Nat → UInt64} {calls : Nat}
    (ok : (refreshSlices files after starts clocks calls).rc = .ok) :
    ((refreshSlices files after starts clocks calls).state.items.map Found.hash).insertionSort (· ≤ ·) =
      (above members after).take refreshBatch ∧
    ((refreshSlices files after starts clocks calls).state.more = true ↔
      refreshBatch < (above members after).length) := by
  have whole := @callsFinal _ files.walk files.tree (refreshCollect files after) idleCursor Batch.empty rfl rfl
    walkEntries starts clocks calls 0 (by unfold refreshSlices at ok; simp [ok])
  have walked := @wholeWalked _ files.walk files.tree (refreshCollect files after) idleCursor Batch.empty rfl rfl
  unfold refreshSlices at ok ⊢
  rw [whole] at ok ⊢
  obtain ⟨todo,_⟩ := walked.clean (walked.judged ok)
  have state := walked.state
  rw [← todo,collectAll] at state
  rw [show (walkWhole files.walk files.tree (refreshCollect files after) idleCursor Batch.empty).state = _ from state]
  have distinct := @foundDistinct files after proper
  have kept := @addAllSmallest _ _ _ Found.hash refreshBatch (files.visits.filterMap (refreshFound files after)) [] _
    (by decide) smallestEmpty (by simpa using distinct)
  rw [List.nil_append] at kept
  have sorted := smallestSorted kept (foundMembers holds) distinct
  rw [above,Finset.length_sort]
  exact sorted

end files
end scan
end CachePurge
