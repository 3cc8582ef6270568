import CachePurge.General.ByteOrder
import CachePurge.General.SearchTree
import CachePurge.CacheFile
import Mathlib.Data.List.Lex
import Mathlib.Algebra.Order.BigOperators.Group.List
import Mathlib.Data.Prod.Lex

/-! The cache's own tree and its accounting, as ngx_http_cache_purge_invalidate_node
reads and changes them for a file that is about to be deleted. -/
namespace CachePurge
open General (ByteOrder SearchTree)

/- ngx_http_file_cache_node_t, with the bytes of node.key as they lie in memory;
width is sizeof(ngx_rbtree_key_t). -/
structure CacheNode (width : Nat) where
  nodeKey : Vector UInt8 width
  key : Vector UInt8 (16 - width)
  present : Bool
  fsSize : Int64
  deriving DecidableEq

structure CacheShared (width : Nat) where
  rbtree : SearchTree (CacheNode width)
  size : Int64
  deriving DecidableEq

/- ngx_hextoi on two digits at a time. -/
def hexPairs : Bytes → Option Bytes
  | high :: low :: rest =>
    (hextoi high).bind fun h => (hextoi low).bind fun l => (hexPairs rest).map fun tail => (h * 16 + l) :: tail
  | _ => some []

def nameHash (path : Bytes) : Option Bytes :=
  if path.length < 32 then none else hexPairs (path.drop (path.length - 32))

def memcmp : Bytes → Bytes → Ordering
  | a :: as,b :: bs => if a < b then .lt else if b < a then .gt else memcmp as bs
  | _,_ => .eq

def invalidateLoop {width : Nat} (order : ByteOrder) (hash : Bytes) :
    SearchTree (CacheNode width) → Int64 → SearchTree (CacheNode width) × Int64
  | .leaf,size => (.leaf,size)
  | .node left node right,size =>
    let nodeKey := order.load (hash.take width)
    if nodeKey < order.load node.nodeKey.toList then
      let (left,size) := invalidateLoop order hash left size
      (.node left node right,size)
    else if order.load node.nodeKey.toList < nodeKey then
      let (right,size) := invalidateLoop order hash right size
      (.node left node right,size)
    else
      match memcmp (hash.drop width) node.key.toList with
      | .lt =>
        let (left,size) := invalidateLoop order hash left size
        (.node left node right,size)
      | .gt =>
        let (right,size) := invalidateLoop order hash right size
        (.node left node right,size)
      | .eq =>
        if node.present then (.node left {node with fsSize := 0,present := false} right,size - node.fsSize)
        else (.node left node right,size)

def invalidateNode {width : Nat} (order : ByteOrder) (path : Bytes) (sh : CacheShared width) : CacheShared width :=
  match nameHash path with
  | none => sh
  | some hash =>
    let (rbtree,size) := invalidateLoop order hash sh.rbtree sh.size
    ⟨rbtree,size⟩

def CacheNode.hash {width : Nat} (node : CacheNode width) : Bytes := node.nodeKey.toList ++ node.key.toList

def CacheNode.rank {width : Nat} (order : ByteOrder) (node : CacheNode width) : ℕ ×ₗ List ℕ :=
  toLex (order.load node.nodeKey.toList,node.key.toList.map UInt8.toNat)

def CacheShared.Ordered {width : Nat} (order : ByteOrder) (sh : CacheShared width) : Prop :=
  sh.rbtree.Ordered (CacheNode.rank order)

def CacheNode.weight {width : Nat} (node : CacheNode width) : Int := if node.present then node.fsSize.toInt else 0

structure CacheShared.Accounted {width : Nat} (sh : CacheShared width) : Prop where
  total : sh.size.toInt = (sh.rbtree.toList.map CacheNode.weight).sum
  sizes : ∀ node ∈ sh.rbtree.toList, 0 ≤ node.fsSize.toInt

def NamedBy (path hash : Bytes) : Prop :=
  hash.length = 16 ∧ ∃ front name, path = front ++ name ∧ lowered name = hexDump hash

section digits

theorem hextoiIff (c d : UInt8) : hextoi c = some d ↔ d.toNat < 16 ∧ hexChar d.toNat = tolower c := by
  refine ⟨hextoiDigit,fun ⟨small,text⟩ => ?_⟩
  have all : ∀ n : Fin 256, ∀ m : Fin 16, hexChar m.val = tolower (UInt8.ofNat n) →
      hextoi (UInt8.ofNat n) = some (UInt8.ofNat m) := by decide +kernel
  have here := all ⟨c.toNat,c.toNat_lt⟩ ⟨d.toNat,small⟩
  simp only [UInt8.ofNat_toNat] at here
  exact here text

theorem hexDumpCons (c : UInt8) (rest : Bytes) :
    hexDump (c :: rest) = hexChar (c.toNat / 16) :: hexChar (c.toNat % 16) :: hexDump rest := by
  have high : c.toNat / 16 % 16 = c.toNat / 16 := Nat.mod_eq_of_lt (by have := c.toNat_lt; omega)
  simp [hexDump,hexDigits,high]

theorem hexDumpLength (s : Bytes) : (hexDump s).length = 2 * s.length := by
  induction s with
  | nil => rfl
  | cons c rest ih =>
    rw [hexDumpCons,List.length_cons,List.length_cons,ih,List.length_cons]
    omega

theorem hexPairIff (high low c : UInt8) :
    (hexChar (c.toNat / 16) = tolower high ∧ hexChar (c.toNat % 16) = tolower low) ↔
      ∃ h l, hextoi high = some h ∧ hextoi low = some l ∧ h * 16 + l = c := by
  have small := c.toNat_lt
  constructor
  · rintro ⟨first,second⟩
    have upper : (UInt8.ofNat (c.toNat / 16)).toNat = c.toNat / 16 := UInt8.toNat_ofNat_of_lt' (show _ < 256 by omega)
    have lower : (UInt8.ofNat (c.toNat % 16)).toNat = c.toNat % 16 := UInt8.toNat_ofNat_of_lt' (show _ < 256 by omega)
    refine ⟨UInt8.ofNat (c.toNat / 16),UInt8.ofNat (c.toNat % 16),(hextoiIff high _).mpr ⟨by omega,by rwa [upper]⟩,
      (hextoiIff low _).mpr ⟨by omega,by rwa [lower]⟩,?_⟩
    · rw [← UInt8.toNat_inj,UInt8.toNat_add,UInt8.toNat_mul,upper,lower,show (16 : UInt8).toNat = 16 from rfl]
      omega
  · rintro ⟨h,l,first,second,rfl⟩
    obtain ⟨highSmall,highText⟩ := (hextoiIff high h).mp first
    obtain ⟨lowSmall,lowText⟩ := (hextoiIff low l).mp second
    have value : (h * 16 + l).toNat = h.toNat * 16 + l.toNat := by
      rw [UInt8.toNat_add,UInt8.toNat_mul,show (16 : UInt8).toNat = 16 from rfl]
      omega
    rw [value,show (h.toNat * 16 + l.toNat) / 16 = h.toNat by omega,show (h.toNat * 16 + l.toNat) % 16 = l.toNat by omega]
    exact ⟨highText,lowText⟩

theorem hexPairsIff (n : Nat) (s hash : Bytes) (long : s.length = 2 * n) :
    hexPairs s = some hash ↔ lowered s = hexDump hash := by
  induction n generalizing s hash with
  | zero =>
    cases List.length_eq_zero_iff.mp long
    cases hash with
    | nil => simp [hexPairs,lowered,hexDump]
    | cons c rest => simp [hexPairs,lowered,hexDumpCons]
  | succ n ih =>
    obtain ⟨high,low,rest,rfl⟩ : ∃ high low rest, s = high :: low :: rest := by
      rcases s with _ | ⟨high,_ | ⟨low,rest⟩⟩
      · simp at long
      · simp at long
        omega
      · exact ⟨high,low,rest,rfl⟩
    have shorter : rest.length = 2 * n := by simpa [Nat.mul_succ] using long
    simp only [hexPairs,Option.bind_eq_some_iff,Option.map_eq_some_iff,ih rest _ shorter]
    cases hash with
    | nil => simp [lowered,hexDump]
    | cons c tail =>
      simp only [lowered,List.map_cons,hexDumpCons,List.cons.injEq]
      constructor
      · rintro ⟨h,first,l,second,_,text,rfl,rfl⟩
        obtain ⟨upper,lower⟩ := (hexPairIff high low _).mpr ⟨h,l,first,second,rfl⟩
        exact ⟨upper.symm,lower.symm,text⟩
      · rintro ⟨upper,lower,text⟩
        obtain ⟨h,l,first,second,value⟩ := (hexPairIff high low c).mp ⟨upper.symm,lower.symm⟩
        exact ⟨h,first,l,second,tail,text,value,rfl⟩

theorem nameHashIff (path hash : Bytes) : nameHash path = some hash ↔ NamedBy path hash := by
  unfold nameHash
  constructor
  · intro read
    split at read
    · contradiction
    · rename_i long
      have short : (path.drop (path.length - 32)).length = 2 * 16 := by
        rw [List.length_drop]
        omega
      have text := (hexPairsIff 16 _ hash short).mp read
      refine ⟨?_,path.take (path.length - 32),_,(List.take_append_drop _ _).symm,text⟩
      have lengths := congrArg List.length text
      rw [loweredLength,hexDumpLength] at lengths
      omega
  · rintro ⟨whole,front,name,rfl,text⟩
    have long : name.length = 2 * 16 := by rw [← loweredLength,text,hexDumpLength,whole]
    rw [List.length_append,if_neg (by omega),show front.length + name.length - 32 = front.length by omega,List.drop_left]
    exact (hexPairsIff 16 name hash long).mpr text

end digits

section descent
variable {width : Nat} (order : ByteOrder)

theorem memcmpCompares {a b : Bytes} (same : a.length = b.length) :
    (memcmp a b).Compares (a.map UInt8.toNat) (b.map UInt8.toNat) := by
  induction a generalizing b with
  | nil =>
    cases b with
    | nil => rfl
    | cons d b => contradiction
  | cons c a ih =>
    cases b with
    | nil => contradiction
    | cons d b =>
      rw [memcmp]
      split
      · rename_i below
        exact List.cons_lt_cons_iff.mpr (.inl (UInt8.lt_iff_toNat_lt.mp below))
      · split
        · rename_i _ above
          exact List.cons_lt_cons_iff.mpr (.inl (UInt8.lt_iff_toNat_lt.mp above))
        · rename_i below above
          rw [UInt8.lt_iff_toNat_lt] at below above
          have equal : c.toNat = d.toNat := by omega
          have rest := ih (Nat.succ.inj same)
          rw [List.map_cons,List.map_cons]
          cases outcome : memcmp a b with
          | lt =>
            rw [outcome] at rest
            exact List.cons_lt_cons_iff.mpr (.inr ⟨equal,rest⟩)
          | gt =>
            rw [outcome] at rest
            exact List.cons_lt_cons_iff.mpr (.inr ⟨equal.symm,rest⟩)
          | eq =>
            rw [outcome] at rest
            exact List.cons_eq_cons.mpr ⟨equal,rest⟩

def nodeProbe (hash : Bytes) (node : CacheNode width) : Ordering :=
  if order.load (hash.take width) < order.load node.nodeKey.toList then .lt
  else if order.load node.nodeKey.toList < order.load (hash.take width) then .gt
  else memcmp (hash.drop width) node.key.toList

def hashRank (width : Nat) (hash : Bytes) : ℕ ×ₗ List ℕ :=
  toLex (order.load (hash.take width),(hash.drop width).map UInt8.toNat)

theorem probeCompares {hash : Bytes} (whole : hash.length = 16) (node : CacheNode width) :
    (nodeProbe order hash node).Compares (hashRank order width hash) (node.rank order) := by
  unfold nodeProbe
  split
  · rename_i below
    exact Prod.Lex.toLex_lt_toLex.mpr (.inl below)
  · split
    · rename_i _ above
      exact Prod.Lex.toLex_lt_toLex.mpr (.inl above)
    · rename_i below above
      have equal : order.load (hash.take width) = order.load node.nodeKey.toList := by omega
      have rest := @memcmpCompares (hash.drop width) node.key.toList (by simp [whole])
      cases outcome : memcmp (hash.drop width) node.key.toList with
      | lt =>
        rw [outcome] at rest
        exact Prod.Lex.toLex_lt_toLex.mpr (.inr ⟨equal,rest⟩)
      | gt =>
        rw [outcome] at rest
        exact Prod.Lex.toLex_lt_toLex.mpr (.inr ⟨equal.symm,rest⟩)
      | eq =>
        rw [outcome] at rest
        exact congrArg toLex (Prod.ext equal rest)

theorem rankSame (fits : width ≤ 16) {hash : Bytes} (whole : hash.length = 16) (node : CacheNode width) :
    node.rank order = hashRank order width hash ↔ node.hash = hash := by
  have front : (hash.take width).length = node.nodeKey.toList.length := by
    rw [List.length_take,whole,Vector.length_toList,Nat.min_eq_left fits]
  constructor
  · intro same
    obtain ⟨native,rest⟩ := Prod.mk.inj (toLex.injective same)
    rw [CacheNode.hash,(order.loadSame front.symm).mp native,
      List.map_injective_iff.mpr (fun _ _ => UInt8.toNat_inj.mp) rest,List.take_append_drop]
  · rintro rfl
    have taken : node.hash.take width = node.nodeKey.toList := List.take_left' (Vector.length_toList)
    have dropped : node.hash.drop width = node.key.toList := List.drop_left' (Vector.length_toList)
    rw [hashRank,taken,dropped]
    rfl

def CacheNode.dropped (node : CacheNode width) : CacheNode width :=
  if node.present then {node with fsSize := 0,present := false} else node

theorem loopNode (hash : Bytes) (left right : SearchTree (CacheNode width)) (node : CacheNode width) (size : Int64) :
    let next := invalidateLoop order hash (.node left node right) size
    (nodeProbe order hash node = .lt → next = ⟨.node (invalidateLoop order hash left size).1 node right,
      (invalidateLoop order hash left size).2⟩) ∧
    (nodeProbe order hash node = .gt → next = ⟨.node left node (invalidateLoop order hash right size).1,
      (invalidateLoop order hash right size).2⟩) ∧
    (nodeProbe order hash node = .eq → next = ⟨.node left node.dropped right,
      if node.present then size - node.fsSize else size⟩) := by
  intro next
  simp only [next,invalidateLoop,nodeProbe]
  by_cases below : order.load (hash.take width) < order.load node.nodeKey.toList
  · simp [below]
  · by_cases above : order.load node.nodeKey.toList < order.load (hash.take width)
    · simp [below,above]
    · simp only [below,above,if_false]
      cases memcmp (hash.drop width) node.key.toList with
      | lt => simp
      | gt => simp
      | eq => cases present : node.present <;> simp [CacheNode.dropped,present]

theorem loopTree (hash : Bytes) (t : SearchTree (CacheNode width)) (size : Int64) :
    (invalidateLoop order hash t size).1 = t.change (nodeProbe order hash) CacheNode.dropped := by
  induction t with
  | leaf => rfl
  | node left node right left_ih right_ih =>
    obtain ⟨less,more,here⟩ := loopNode order hash left right node size
    rw [SearchTree.change]
    cases outcome : nodeProbe order hash node with
    | lt => rw [less outcome,left_ih]
    | gt => rw [more outcome,right_ih]
    | eq => rw [here outcome]

theorem loopSize (hash : Bytes) (t : SearchTree (CacheNode width)) (size : Int64) :
    (invalidateLoop order hash t size).2 =
      ((t.find (nodeProbe order hash)).filter CacheNode.present).elim size fun node => size - node.fsSize := by
  induction t with
  | leaf => rfl
  | node left node right left_ih right_ih =>
    obtain ⟨less,more,here⟩ := loopNode order hash left right node size
    rw [SearchTree.find]
    cases outcome : nodeProbe order hash node with
    | lt => rw [less outcome,left_ih]
    | gt => rw [more outcome,right_ih]
    | eq =>
      rw [here outcome]
      cases present : node.present <;> simp [Option.filter_some,present]

theorem droppedWeight (node : CacheNode width) : node.dropped.weight = 0 := by
  unfold CacheNode.dropped CacheNode.weight
  cases present : node.present <;> simp [present]

end descent

section shared
variable {width : Nat} {order : ByteOrder} {sh : CacheShared width} {path hash : Bytes} {node : CacheNode width}

theorem nodeOnly (ordered : sh.Ordered order) {a b : CacheNode width} (left : a ∈ sh.rbtree.toList)
    (right : b ∈ sh.rbtree.toList) (same : a.rank order = b.rank order) : a = b := by
  have distinct : (sh.rbtree.toList.map (CacheNode.rank order)).Nodup :=
    List.pairwise_map.mpr (ordered.imp fun below => below.ne)
  exact List.inj_on_of_nodup_map distinct left right same

theorem namedOnly {one other : Bytes} (named : NamedBy path one) (also : NamedBy path other) : one = other :=
  Option.some.inj (((nameHashIff path one).mpr named).symm.trans ((nameHashIff path other).mpr also))

theorem namedNode (fits : width ≤ 16) (ordered : sh.Ordered order) {other : Bytes} {a b : CacheNode width}
    (left : a ∈ sh.rbtree.toList) (right : b ∈ sh.rbtree.toList) (named : NamedBy path hash) (also : NamedBy path other)
    (same : a.hash = hash) (alike : b.hash = other) : a = b := by
  have rankA := (rankSame order fits named.1 a).mpr same
  have rankB := (rankSame order fits also.1 b).mpr alike
  rw [← namedOnly named also] at rankB
  exact nodeOnly ordered left right (rankA.trans rankB.symm)

theorem invalidateCases (fits : width ≤ 16) (ordered : sh.Ordered order) (path : Bytes) :
    (∃ hash, NamedBy path hash ∧ ∃ node ∈ sh.rbtree.toList, node.hash = hash ∧ node.present = true ∧
      invalidateNode order path sh =
        ⟨sh.rbtree.map fun other => if other.rank order = node.rank order then other.dropped else other,sh.size - node.fsSize⟩) ∨
    ((∀ hash, NamedBy path hash → ∀ node ∈ sh.rbtree.toList, node.hash = hash → node.present = false) ∧
      invalidateNode order path sh = sh) := by
  unfold invalidateNode
  cases read : nameHash path with
  | none =>
    refine .inr ⟨fun hash named => ?_,rfl⟩
    rw [(nameHashIff path hash).mpr named] at read
    contradiction
  | some hash =>
    have named := (nameHashIff path hash).mp read
    have probes := fun node : CacheNode width => probeCompares order named.1 node
    have found := SearchTree.findIff probes ordered
    have maps := SearchTree.changeMaps (f := CacheNode.dropped) probes ordered
    have result : (invalidateLoop order hash sh.rbtree sh.size) = ⟨_,_⟩ :=
      Prod.ext (loopTree order hash sh.rbtree sh.size) (loopSize order hash sh.rbtree sh.size)
    simp only [result,maps]
    cases ends : sh.rbtree.find (nodeProbe order hash) with
    | none =>
      have missing := SearchTree.findNone probes ordered ends
      refine .inr ⟨fun other also node member same => ?_,?_⟩
      · cases namedOnly named also
        exact absurd ((rankSame order fits named.1 node).mpr same) (missing node member)
      · rw [SearchTree.mapSame fun node member => if_neg (missing node member)]
        rfl
    | some node =>
      obtain ⟨member,same⟩ := (found node).mp ends
      cases present : node.present with
      | true =>
        refine .inl ⟨hash,named,node,member,(rankSame order fits named.1 node).mp same,present,?_⟩
        simp [Option.filter_some,present,same]
      | false =>
        refine .inr ⟨fun other also a listed alike => ?_,?_⟩
        · cases namedOnly named also
          rw [nodeOnly ordered listed member (((rankSame order fits named.1 a).mpr alike).trans same.symm)]
          exact present
        · have kept (a : CacheNode width) (listed : a ∈ sh.rbtree.toList) :
              (if a.rank order = hashRank order width hash then a.dropped else a) = a := by
            split
            · rename_i alike
              rw [nodeOnly ordered listed member (alike.trans same.symm),CacheNode.dropped,present]
              rfl
            · rfl
          rw [SearchTree.mapSame kept]
          simp [Option.filter_some,present]

def CacheShared.without (sh : CacheShared width) (node : CacheNode width) : CacheShared width where
  rbtree := sh.rbtree.map fun other => if other = node then {other with fsSize := 0,present := false} else other
  size := sh.size - node.fsSize

theorem withoutMaps (ordered : sh.Ordered order) (member : node ∈ sh.rbtree.toList) (present : node.present = true) :
    (sh.rbtree.map fun other => if other.rank order = node.rank order then other.dropped else other) =
      (sh.without node).rbtree := by
  refine SearchTree.mapAgree fun other listed => ?_
  by_cases here : other = node
  · rw [here,if_pos rfl,if_pos rfl,CacheNode.dropped,if_pos present]
  · rw [if_neg here,if_neg fun same => here (nodeOnly ordered listed member same)]

theorem withoutOrdered (ordered : sh.Ordered order) : (sh.without node).Ordered order := by
  refine SearchTree.mapOrdered (fun other => ?_) ordered
  split <;> rfl

theorem withoutAccounted (ordered : sh.Ordered order) (accounted : sh.Accounted) (member : node ∈ sh.rbtree.toList)
    (present : node.present = true) : (sh.without node).Accounted ∧
      node.fsSize.toInt ≤ sh.size.toInt ∧ (sh.without node).size.toInt = sh.size.toInt - node.fsSize.toInt := by
  have weight : node.weight = node.fsSize.toInt := if_pos present
  have plain := accounted.sizes node member
  have most : node.fsSize.toInt ≤ sh.size.toInt := by
    rw [accounted.total,← weight]
    refine List.single_le_sum (fun value listed => ?_) _ (List.mem_map_of_mem member)
    obtain ⟨other,here,rfl⟩ := List.mem_map.mp listed
    unfold CacheNode.weight
    split
    · exact accounted.sizes other here
    · exact le_rfl
  have left : (sh.without node).size.toInt = sh.size.toInt - node.fsSize.toInt :=
    Int64.toInt_sub_of_le _ _ (Int64.le_iff_toInt_le.mpr plain) (Int64.le_iff_toInt_le.mpr most)
  have sum := SearchTree.changeSum (f := CacheNode.dropped) ordered member CacheNode.weight
  rw [withoutMaps ordered member present,droppedWeight,weight,← accounted.total] at sum
  refine ⟨⟨by rw [left,sum,add_zero],fun other listed => ?_⟩,most,left⟩
  rw [CacheShared.without,SearchTree.mapList] at listed
  obtain ⟨before,here,rfl⟩ := List.mem_map.mp listed
  split
  · exact le_rfl
  · exact accounted.sizes before here

end shared

/- The call does one of two things: the one present node of the path's key loses its
file and the size its blocks, or nothing changes. -/
theorem invalidateExact {width : Nat} (fits : width ≤ 16) (order : ByteOrder) (sh : CacheShared width)
    (ordered : sh.Ordered order) (path : Bytes) :
    let after := invalidateNode order path sh
    (after ≠ sh → ∃ hash, NamedBy path hash ∧ ∃ node ∈ sh.rbtree.toList, node.hash = hash ∧ node.present = true) ∧
    (∀ hash, NamedBy path hash → ∀ node ∈ sh.rbtree.toList, node.hash = hash → node.present = true →
      after = sh.without node ∧
      (sh.Accounted → node.fsSize.toInt ≤ sh.size.toInt ∧ after.size.toInt = sh.size.toInt - node.fsSize.toInt)) ∧
    (sh.Accounted → after.Accounted) ∧ after.Ordered order ∧ invalidateNode order path after = after := by
  intro after
  rcases invalidateCases fits ordered path with ⟨hash,named,node,member,same,present,result⟩ | ⟨none_,result⟩
  · have result : after = sh.without node := by
      rw [show after = _ from result,withoutMaps ordered member present]
      rfl
    have ordered' : after.Ordered order := result ▸ withoutOrdered ordered
    refine ⟨fun _ => ⟨hash,named,node,member,same,present⟩,fun other also a listed alike here => ?_,fun accounted => ?_,
      ordered',?_⟩
    · rw [namedNode fits ordered listed member also named alike same]
      refine ⟨result,fun accounted => ?_⟩
      rw [result]
      exact (withoutAccounted ordered accounted member present).2
    · rw [result]
      exact (withoutAccounted ordered accounted member present).1
    · rcases invalidateCases fits ordered' path with ⟨other,also,a,listed,alike,here,_⟩ | ⟨_,again⟩
      · rw [result,CacheShared.without,SearchTree.mapList] at listed
        obtain ⟨before,found,rfl⟩ := List.mem_map.mp listed
        split at here
        · contradiction
        · rename_i differs
          rw [if_neg differs] at alike
          exact absurd (namedNode fits ordered found member also named alike same) differs
      · exact again
  · have result : after = sh := result
    rw [result]
    refine ⟨fun changed => absurd rfl changed,fun hash named node member same present => ?_,id,ordered,
      show after = sh from result⟩
    rw [none_ hash named node member same] at present
    contradiction

theorem invalidateExactNamed :
    let node : CacheNode 8 := ⟨#v[0,1,2,3,4,5,6,7],#v[8,9,10,11,12,13,14,175],true,3⟩
    let other : CacheNode 8 := ⟨#v[0,1,2,3,4,5,6,6],#v[8,9,10,11,12,13,14,175],true,6⟩
    let path : Bytes := [47,48,48,48,49,48,50,48,51,48,52,48,53,48,54,48,55,48,56,48,57,48,65,48,98,48,67,48,100,48,69,65,102]
    let sh : CacheShared 8 := ⟨.node (.node .leaf other .leaf) node .leaf,9⟩
    invalidateNode .little path sh = ⟨.node (.node .leaf other .leaf) {node with present := false,fsSize := 0} .leaf,6⟩ := by
  intro node other path sh
  have ordered : sh.Ordered .little := by
    refine List.pairwise_cons.mpr ⟨fun b member => ?_,List.pairwise_singleton _ _⟩
    rw [List.mem_singleton.mp member]
    exact Prod.Lex.toLex_lt_toLex.mpr (.inl (by decide +kernel))
  have named : NamedBy path (node.hash) := (nameHashIff _ _).mp (by decide +kernel)
  obtain ⟨_,drops,_⟩ := invalidateExact (by decide) .little sh ordered path
  rw [(drops _ named node (by decide +kernel) rfl rfl).1]
  decide +kernel

end CachePurge
