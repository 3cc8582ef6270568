import CachePurge.General.Machine
import CachePurge.GenerationVersions

/-! The slab nodes of a namespace. A node is in a trie through child and sibling
links and in one of two chains through its allocated link; a reset moves a whole
chain at once, and later calls free it a few nodes at a time. -/
namespace CachePurge
open General

inductive SlabCall where
  | granted (node : Nat)
  | freed (node : Nat)
  deriving DecidableEq, Repr

def SlabCall.frees : SlabCall → Bool
  | .granted _ => false
  | .freed _ => true

def slabReplay : List Nat → List SlabCall → Option (List Nat)
  | live, [] => some live
  | live, .granted node :: rest => if node ∈ live then none else slabReplay (node :: live) rest
  | live, .freed node :: rest => if node ∈ live then slabReplay (live.erase node) rest else none

def reclaimCalls : Nat → Zone → List SlabCall
  | 0, _ => []
  | n + 1, z => match z.shared.garbage with
    | [] => []
    | node :: rest => .freed node :: reclaimCalls n ⟨{z.shared with garbage := rest},z.live.erase node⟩

def recordedAlloc (s : (Zone × List (Option Nat)) × List SlabCall) :
    Option (RuleCell × (Zone × List (Option Nat)) × List SlabCall) :=
  (ruleAlloc s.1).map fun a => (a.1,(a.2,s.2 ++ [.granted a.1.address]))

def insertRecord (call : Invalidation) (z : Zone) :
    Option Rules × (Zone × List (Option Nat)) × List SlabCall :=
  SiblingTrie.insert recordedAlloc (fun cell => {cell with generation := z.shared.serial}) call.path
    (if call.ranged then z.shared.prefixRules else z.shared.exactRules) ((z,call.cells),[])

def insertCalls (call : Invalidation) (z : Zone) : List SlabCall := (insertRecord call z).2.2

def slabCalls (name : Name) (call : Invalidation) (z : Zone) : List SlabCall :=
  if (generationInvalidate name call z).1 = .ok then
    reclaimCalls 64 z ++
      if call.all || call.selector.isEmpty then [] else insertCalls call (Invalidation.stamped z)
  else []

def storageMachine (name : Name) : Machine Zone Invalidation SlabCall where
  step z call := ((generationInvalidate name call z).2,slabCalls name call z)

def Generation.reachable (state : Generation) : List Nat :=
  (state.exactRules.values ++ state.prefixRules.values).map RuleCell.address

/- The two chains share out the live nodes, and the tail ends the first. -/
structure Zone.Chained (z : Zone) : Prop where
  live : z.live.Perm (z.shared.allocated ++ z.shared.garbage)
  distinct : z.live.Nodup
  tail : z.shared.tail = z.shared.allocated.getLast?

structure Zone.Stored (z : Zone) : Prop extends z.Chained where
  reach : z.shared.reachable.Perm z.shared.allocated

theorem initStored (epoch : Epoch) : (generationInit epoch).Stored :=
  ⟨⟨.refl _,List.nodup_nil,rfl⟩,List.Perm.nil⟩

theorem replayAppend (live : List Nat) (front back : List SlabCall) :
    slabReplay live (front ++ back) = (slabReplay live front).bind fun live => slabReplay live back := by
  induction front generalizing live with
  | nil => rfl
  | cons c rest ih =>
    cases c with
    | granted node =>
      simp only [List.cons_append,slabReplay]
      split
      · rfl
      · exact ih _
    | freed node =>
      simp only [List.cons_append,slabReplay]
      split
      · exact ih _
      · rfl

section reclaim
variable {z : Zone}

theorem reclaimOne {node : Nat} {rest : List Nat} (stored : z.Stored) (garbage : z.shared.garbage = node :: rest) :
    node ∈ z.live ∧ (⟨{z.shared with garbage := rest},z.live.erase node⟩ : Zone).Stored := by
  have live := stored.live
  rw [garbage] at live
  have member : node ∈ z.live := live.mem_iff.mpr (by simp)
  have front : (node :: (z.shared.allocated ++ rest)).Perm z.live := (List.perm_middle.symm.trans live.symm)
  have left : (z.live.erase node).Perm (z.shared.allocated ++ rest) := by
    have erased := (front.erase node).symm
    rwa [List.erase_cons_head] at erased
  exact ⟨member,⟨left,stored.distinct.erase node,stored.tail⟩,stored.reach⟩

theorem reclaimStored (n : Nat) (stored : z.Stored) : (reclaimGarbage n z).Stored ∧
    slabReplay z.live (reclaimCalls n z) = some (reclaimGarbage n z).live := by
  induction n generalizing z with
  | zero => exact ⟨stored,rfl⟩
  | succ n ih =>
    unfold reclaimGarbage reclaimCalls
    cases garbage : z.shared.garbage with
    | nil => exact ⟨stored,rfl⟩
    | cons node rest =>
      obtain ⟨member,next⟩ := reclaimOne stored garbage
      obtain ⟨left,replays⟩ := ih next
      exact ⟨left,by rw [slabReplay,if_pos member]; exact replays⟩

theorem reclaimBounded (n : Nat) (z : Zone) : (reclaimCalls n z).length ≤ n ∧
    ∀ c ∈ reclaimCalls n z, ∃ node ∈ z.shared.garbage, c = .freed node := by
  induction n generalizing z with
  | zero => exact ⟨le_rfl,fun c member => (List.not_mem_nil member).elim⟩
  | succ n ih =>
    unfold reclaimCalls
    cases garbage : z.shared.garbage with
    | nil => exact ⟨Nat.zero_le _,fun c member => (List.not_mem_nil member).elim⟩
    | cons node rest =>
      obtain ⟨few,all⟩ := ih ⟨{z.shared with garbage := rest},z.live.erase node⟩
      refine ⟨Nat.succ_le_succ few,fun c member => ?_⟩
      rcases List.mem_cons.mp member with rfl | later
      · exact ⟨node,List.mem_cons_self,rfl⟩
      · obtain ⟨other,inside,same⟩ := all c later
        exact ⟨other,List.mem_cons_of_mem node inside,same⟩

end reclaim

section reset
variable {z : Zone}

theorem takeUntil {xs : List Nat} {last : Nat} (distinct : (xs ++ [last]).Nodup) :
    (xs ++ [last]).takeWhile (· != last) = xs := by
  have apart : ∀ x ∈ xs, (x != last) = true := by
    intro x member
    rw [bne_iff_ne]
    rintro rfl
    exact (List.nodup_append.mp distinct).2.2 x member x (List.mem_singleton_self x) rfl
  rw [List.takeWhile_append_of_pos apart]
  simp

theorem spliceAll (chained : z.Chained) : spliceGarbage z.shared = z.shared.allocated ++ z.shared.garbage ∨
    z.shared.allocated = [] := by
  rcases List.eq_nil_or_concat z.shared.allocated with none_ | ⟨front,last,cut⟩
  · exact .inr none_
  · rw [List.concat_eq_append] at cut
    have distinct : (front ++ [last]).Nodup := by
      have both := chained.live.nodup_iff.mp chained.distinct
      rw [cut] at both
      exact (List.nodup_append.mp both).1
    have tail : z.shared.tail = some last := by rw [chained.tail,cut,List.getLast?_concat]
    left
    rw [spliceGarbage,tail]
    simp only
    rw [if_pos (by simp [cut]),cut,takeUntil distinct,List.append_assoc]
    rfl

theorem resetStored (chained : z.Chained) : (⟨generationReset z.shared,z.live⟩ : Zone).Stored := by
  have live := chained.live
  simp only [generationReset]
  split
  · rename_i none_
    have none_ : z.shared.allocated = [] := List.isEmpty_iff.mp none_
    exact ⟨⟨live,chained.distinct,chained.tail⟩,by rw [none_]; exact List.Perm.nil⟩
  · rename_i some_
    rcases spliceAll chained with whole | none_
    · refine ⟨⟨?_,chained.distinct,rfl⟩,List.Perm.nil⟩
      change z.live.Perm (spliceGarbage z.shared)
      rw [whole]
      exact live
    · exact absurd (List.isEmpty_iff.mpr none_) some_

end reset

section insertion
variable {z : Zone} {call : Invalidation}

/- The state of an insertion: the zone so far, the answers left and the calls made. -/
structure Granting (start : List Nat) (s : (Zone × List (Option Nat)) × List SlabCall) : Prop where
  chained : s.1.1.Chained
  replays : slabReplay start s.2 = some s.1.1.live
  grants : ∀ c ∈ s.2, c.frees = false

theorem grantedChained {s : Zone × List (Option Nat)} {a : RuleCell × Zone × List (Option Nat)} (chained : s.1.Chained)
    (granted : ruleAlloc s = some a) : a.1.address ∉ s.1.live ∧ a.2.1.live = a.1.address :: s.1.live ∧
      a.2.1.shared.allocated = a.1.address :: s.1.shared.allocated ∧ a.2.1.Chained := by
  unfold ruleAlloc at granted
  split at granted <;> try contradiction
  rename_i z address answers
  split at granted <;> try contradiction
  rename_i fresh
  cases Option.some.inj granted
  refine ⟨fresh,rfl,rfl,?_,List.nodup_cons.mpr ⟨fresh,chained.distinct⟩,?_⟩
  · exact chained.live.cons address
  · have tail := chained.tail
    change z.shared.tail.or (some address) = (address :: z.shared.allocated).getLast?
    rw [show z.shared.tail = z.shared.allocated.getLast? from tail]
    cases z.shared.allocated with
    | nil => rfl
    | cons head rest => rw [List.getLast?_cons_cons,List.getLast?_cons]; rfl

theorem recordedGranting {start : List Nat} (s : (Zone × List (Option Nat)) × List SlabCall)
    (a : RuleCell × (Zone × List (Option Nat)) × List SlabCall) (before : Granting start s)
    (granted : recordedAlloc s = some a) : Granting start a.2 := by
  obtain ⟨got,taken,rfl⟩ := Option.map_eq_some_iff.mp granted
  obtain ⟨fresh,live,_,chained⟩ := grantedChained before.chained taken
  refine ⟨chained,?_,fun c member => ?_⟩
  · rw [replayAppend,before.replays,Option.bind_some,slabReplay,if_neg fresh,slabReplay,live]
  · rcases List.mem_append.mp member with earlier | last
    · exact before.grants c earlier
    · rw [List.mem_singleton.mp last]
      rfl

theorem recordInserts (call : Invalidation) (z : Zone) :
    ((insertRecord call z).1,(insertRecord call z).2.1) = insertRule call z := by
  refine SiblingTrie.insertRecorded (fun s => ?_) call.path _ ((z,call.cells),[])
  unfold recordedAlloc
  cases ruleAlloc s.1 <;> rfl

theorem recordGranting (chained : z.Chained) : Granting z.live (insertRecord call z).2 :=
  SiblingTrie.insertInvariant recordedGranting call.path
    ⟨chained,rfl,fun _ member => (List.not_mem_nil member).elim⟩ _

theorem insertGranting (chained : z.Chained) : (insertRule call z).2.1.Chained ∧
    slabReplay z.live (insertCalls call z) = some (insertRule call z).2.1.live ∧
    ∀ c ∈ insertCalls call z, c.frees = false := by
  have granting := @recordGranting z call chained
  have same := congrArg Prod.snd (recordInserts call z)
  rw [← same]
  exact ⟨granting.chained,granting.replays,granting.grants⟩

theorem insertReach {rules : Rules} {rest : Zone × List (Option Nat)} (stored : z.Stored)
    (inserted : insertRule call z = (some rules,rest)) : (rules.values.map RuleCell.address ++
      ((if call.ranged then z.shared.exactRules else z.shared.prefixRules).values.map RuleCell.address)).Perm
    rest.1.shared.allocated := by
  have chains : SiblingTrie.Chains ruleAlloc RuleCell.address fun s => s.1.shared.allocated := by
    intro s a granted
    unfold ruleAlloc at granted
    split at granted <;> try contradiction
    split at granted <;> try contradiction
    cases Option.some.inj granted
    rfl
  have stamped : ∀ cell : RuleCell,
      RuleCell.address {cell with generation := z.shared.serial} = cell.address := fun _ => rfl
  obtain ⟨new,chained,values⟩ := SiblingTrie.insertValues chains stamped inserted
  have reach := stored.reach
  rw [Generation.reachable,List.map_append] at reach
  rw [show rest.1.shared.allocated = new ++ z.shared.allocated from chained]
  refine (values.append_right _).trans ?_
  rw [List.append_assoc]
  refine List.Perm.append_left new ?_
  cases call.ranged with
  | true => exact List.perm_append_comm.trans reach
  | false => exact reach

theorem insertAsks (present : (SiblingTrie.valueAt call.path
    (if call.ranged then z.shared.prefixRules else z.shared.exactRules)).isSome) : insertCalls call z = [] := by
  unfold insertCalls insertRecord
  rw [SiblingTrie.insertPresent present]

end insertion

section runs
variable {name : Name} {call : Invalidation} {z : Zone}

theorem stampedStored (stored : z.Stored) : (Invalidation.stamped z).Stored ∧
    slabReplay z.live (reclaimCalls 64 z) = some (Invalidation.stamped z).live := by
  obtain ⟨left,replays⟩ := reclaimStored 64 stored
  exact ⟨⟨⟨left.live,left.distinct,left.tail⟩,left.reach⟩,replays⟩

theorem writeStored (stored : z.Stored) : (writeRule call z).Stored ∧
    slabReplay z.live (if call.all || call.selector.isEmpty then [] else insertCalls call z) =
      some (writeRule call z).live := by
  unfold writeRule
  split
  · exact ⟨resetStored stored.toChained,rfl⟩
  · obtain ⟨chained,replays,_⟩ := @insertGranting z call stored.toChained
    obtain ⟨chain,last,after⟩ := insertShared call z
    split
    · rename_i w answers inserted
      rw [inserted] at chained replays
      exact ⟨resetStored chained,replays⟩
    · rename_i rules w answers inserted
      have reach := insertReach stored inserted
      rw [inserted] at chained replays after
      change w.shared = _ at after
      split
      · rename_i ranged
        refine ⟨⟨⟨chained.live,chained.distinct,chained.tail⟩,?_⟩,replays⟩
        rw [if_pos ranged] at reach
        have other : w.shared.exactRules = z.shared.exactRules := by rw [after]
        change ((w.shared.exactRules.values ++ rules.values).map RuleCell.address).Perm w.shared.allocated
        rw [other,List.map_append]
        exact List.perm_append_comm.trans reach
      · rename_i ranged
        refine ⟨⟨⟨chained.live,chained.distinct,chained.tail⟩,?_⟩,replays⟩
        rw [if_neg ranged] at reach
        have other : w.shared.prefixRules = z.shared.prefixRules := by rw [after]
        change ((rules.values ++ w.shared.prefixRules.values).map RuleCell.address).Perm w.shared.allocated
        rw [other,List.map_append]
        exact reach

theorem invalidateStored (name : Name) (call : Invalidation) (stored : z.Stored) :
    (generationInvalidate name call z).2.Stored ∧
    slabReplay z.live (slabCalls name call z) = some (generationInvalidate name call z).2.live := by
  unfold slabCalls
  rcases invalidateOutcome name call z with ⟨refused,same⟩ | ⟨accepted,same,_⟩
  · rw [if_neg refused,same]
    exact ⟨stored,rfl⟩
  · rw [if_pos accepted,same]
    obtain ⟨next,freed⟩ := stampedStored stored
    obtain ⟨written,granted⟩ := @writeStored call _ next
    refine ⟨written,?_⟩
    rw [replayAppend,freed,Option.bind_some]
    exact granted

theorem runStored (name : Name) (epoch : Epoch) (calls : List Invalidation) :
    ((storageMachine name).after (generationInit epoch) calls).Stored ∧
    slabReplay [] ((storageMachine name).outputs (generationInit epoch) calls) =
      some ((storageMachine name).after (generationInit epoch) calls).live := by
  have kept : ∀ past z call, (z.Stored ∧ slabReplay [] past = some z.live) →
      (generationInvalidate name call z).2.Stored ∧
      slabReplay [] (past ++ slabCalls name call z) = some (generationInvalidate name call z).2.live := by
    rintro past z call ⟨stored,replays⟩
    obtain ⟨next,more⟩ := invalidateStored name call stored
    exact ⟨next,by rw [replayAppend,replays,Option.bind_some,more]⟩
  exact (storageMachine name).tracks (P := fun past z => z.Stored ∧ slabReplay [] past = some z.live)
    ⟨initStored epoch,rfl⟩ kept calls

theorem callFrees (stored : z.Stored) : ((slabCalls name call z).filter SlabCall.frees).length ≤ 64 ∧
    ∀ node, .freed node ∈ slabCalls name call z → node ∈ z.shared.garbage ∧ node ∉ z.shared.reachable := by
  obtain ⟨few,all⟩ := reclaimBounded 64 z
  have apart (node : Nat) (member : node ∈ z.shared.garbage) : node ∉ z.shared.reachable := by
    have both := stored.live.nodup_iff.mp stored.distinct
    exact fun inside => (List.nodup_append.mp both).2.2 node (stored.reach.mem_iff.mp inside) node member rfl
  unfold slabCalls
  split
  · have grants : ∀ c ∈ (if call.all || call.selector.isEmpty then [] else insertCalls call (Invalidation.stamped z)),
        c.frees = false := by
      split
      · exact fun _ member => (List.not_mem_nil member).elim
      · exact (insertGranting (stampedStored stored).1.toChained).2.2
    have none_ : (if call.all || call.selector.isEmpty then []
        else insertCalls call (Invalidation.stamped z)).filter SlabCall.frees = [] :=
      List.filter_eq_nil_iff.mpr fun c member => by rw [grants c member]; exact Bool.false_ne_true
    refine ⟨?_,fun node member => ?_⟩
    · rw [List.filter_append,none_,List.append_nil]
      exact (List.length_filter_le _ _).trans few
    · rcases List.mem_append.mp member with freed | granted
      · obtain ⟨other,inside,same⟩ := all _ freed
        cases same
        exact ⟨inside,apart node inside⟩
      · exact absurd (grants _ granted) (by simp [SlabCall.frees])
  · exact ⟨Nat.zero_le _,fun _ member => (List.not_mem_nil member).elim⟩

theorem callAsks {node : Nat} (present : (SiblingTrie.valueAt call.path
    (if call.ranged then z.shared.prefixRules else z.shared.exactRules)).isSome) :
    .granted node ∉ slabCalls name call z := by
  obtain ⟨garbage,after⟩ := stampedShared z
  unfold slabCalls
  split
  · intro member
    rcases List.mem_append.mp member with freed | granted
    · obtain ⟨_,_,same⟩ := (reclaimBounded 64 z).2 _ freed
      contradiction
    · rw [insertAsks (by rw [after]; exact present)] at granted
      split at granted <;> exact List.not_mem_nil granted
  · exact List.not_mem_nil

/- Over every run the nodes that are granted and not yet freed are the live ones:
no live node is granted and none is freed twice. They are the two chains, without
an overlap; the tries lead to the allocated chain, and the tail is its last node.
And what any call frees next is bounded and out of reach of the tries. -/
theorem storageExact (name : Name) (epoch : Epoch) (calls : List Invalidation) :
    let z := (storageMachine name).after (generationInit epoch) calls
    slabReplay [] ((storageMachine name).outputs (generationInit epoch) calls) = some z.live ∧
    z.live.Perm (z.shared.allocated ++ z.shared.garbage) ∧ (z.shared.allocated ++ z.shared.garbage).Nodup ∧
    z.shared.reachable.Perm z.shared.allocated ∧ z.shared.tail = z.shared.allocated.getLast? ∧
    ∀ call, ((slabCalls name call z).filter SlabCall.frees).length ≤ 64 ∧
      (∀ node, .freed node ∈ slabCalls name call z → node ∈ z.shared.garbage ∧ node ∉ z.shared.reachable) ∧
      ((SiblingTrie.valueAt call.path
          (if call.ranged then z.shared.prefixRules else z.shared.exactRules)).isSome →
        ∀ node, .granted node ∉ slabCalls name call z) := by
  intro z
  obtain ⟨stored,replays⟩ := runStored name epoch calls
  have stored : z.Stored := stored
  refine ⟨replays,stored.live,stored.live.nodup_iff.mp stored.distinct,stored.reach,stored.tail,fun call => ?_⟩
  obtain ⟨few,out⟩ := @callFrees name call z stored
  exact ⟨few,out,fun present node => callAsks present⟩

end runs

end CachePurge
