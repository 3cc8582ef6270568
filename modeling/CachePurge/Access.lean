import CachePurge.General.ByteOrder
import CachePurge.Bytes

/-! The decision of ngx_http_cache_purge_access, on addresses as they lie in memory:
in network order, whatever the order of the host. -/
namespace CachePurge
open General (ByteOrder)

/- ngx_in_cidr_t and ngx_in6_cidr_t -/
structure Cidr (n : Nat) where
  mask : Vector UInt8 n
  addr : Vector UInt8 n
  deriving DecidableEq

inductive Sockaddr where
  | inet (addr : Vector UInt8 4)
  | inet6 (addr : Vector UInt8 16)
  | other
  deriving DecidableEq

def inAddr (order : ByteOrder) (bytes : Vector UInt8 4) : UInt32 := UInt32.ofNat (order.load bytes.toList)

def htonl (order : ByteOrder) (x : UInt32) : UInt32 :=
  inAddr order #v[(x >>> 24).toUInt8,(x >>> 16).toUInt8,(x >>> 8).toUInt8,x.toUInt8]

def v4Mapped (p : Vector UInt8 16) : Bool :=
  (p.toList.take 10).all (· == 0) && p[10] == 0xff && p[11] == 0xff

def mappedAddr (order : ByteOrder) (p : Vector UInt8 16) : UInt32 :=
  let inaddr := p[12].toUInt32 <<< 24
  let inaddr := inaddr + p[13].toUInt32 <<< 16
  let inaddr := inaddr + p[14].toUInt32 <<< 8
  let inaddr := inaddr + p[15].toUInt32
  htonl order inaddr

def access4 (order : ByteOrder) (inaddr : UInt32) : List (Cidr 4) → Rc
  | [] => .declined
  | a :: rest => if inaddr &&& inAddr order a.mask == inAddr order a.addr then .ok else access4 order inaddr rest

def matches6 (p : Vector UInt8 16) (a : Cidr 16) (n : Nat) : Bool :=
  if within : n < 16 then
    if p[n] &&& a.mask[n] != a.addr[n] then false else matches6 p a (n + 1)
  else true
termination_by 16 - n

def access6Loop (p : Vector UInt8 16) : List (Cidr 16) → Rc
  | [] => .declined
  | a :: rest => if matches6 p a 0 then .ok else access6Loop p rest

def purgeAccess (order : ByteOrder) (access : Option (List (Cidr 4))) (access6 : Option (List (Cidr 16))) : Sockaddr → Rc
  | .inet addr =>
    match access with
    | none => .declined
    | some rules => access4 order (inAddr order addr) rules
  | .inet6 p =>
    match access,v4Mapped p with
    | some rules,true => access4 order (mappedAddr order p) rules
    | _,_ =>
      match access6 with
      | none => .declined
      | some rules => access6Loop p rules
  | .other => .declined

def Cidr.Covers {n : Nat} (rule : Cidr n) (addr : Vector UInt8 n) : Prop := ∀ i : Fin n, addr[i] &&& rule.mask[i] = rule.addr[i]

def mapped (addr : Vector UInt8 4) : Vector UInt8 16 :=
  #v[0,0,0,0,0,0,0,0,0,0,0xff,0xff,addr[0],addr[1],addr[2],addr[3]]

section words
variable (order : ByteOrder)

theorem inAddrNat (bytes : Vector UInt8 4) : (inAddr order bytes).toNat = order.load bytes.toList := by
  have bound := order.loadBound bytes.toList
  rw [Vector.length_toList] at bound
  exact UInt32.toNat_ofNat_of_lt' bound

theorem inAddrCovers (addr : Vector UInt8 4) (rule : Cidr 4) :
    inAddr order addr &&& inAddr order rule.mask = inAddr order rule.addr ↔ rule.Covers addr := by
  rw [← UInt32.toNat_inj,UInt32.toNat_and,inAddrNat,inAddrNat,inAddrNat,
    ← order.loadAnd (by simp),order.loadSame (by simp),← Vector.toList_zipWith,Vector.toList_inj,Vector.ext_iff]
  refine ⟨fun same i => ?_,fun covers i small => ?_⟩
  · have byte := same i i.isLt
    rwa [Vector.getElem_zipWith] at byte
  · rw [Vector.getElem_zipWith]
    exact covers ⟨i,small⟩

theorem shiftedBytes (a b c d : UInt8) :
    let x := a.toUInt32 <<< 24 + b.toUInt32 <<< 16 + c.toUInt32 <<< 8 + d.toUInt32
    (x >>> 24).toUInt8 = a ∧ (x >>> 16).toUInt8 = b ∧ (x >>> 8).toUInt8 = c ∧ x.toUInt8 = d := by
  intro x
  have first := a.toNat_lt
  have second := b.toNat_lt
  have third := c.toNat_lt
  have fourth := d.toNat_lt
  have value : x.toNat = a.toNat * 2 ^ 24 + b.toNat * 2 ^ 16 + c.toNat * 2 ^ 8 + d.toNat := by
    simp only [x,UInt32.toNat_add,UInt32.toNat_shiftLeft,UInt8.toNat_toUInt32,Nat.shiftLeft_eq,UInt32.reduceToNat,
      Nat.reduceMod,Nat.reducePow]
    omega
  refine ⟨?_,?_,?_,?_⟩
  all_goals
    rw [← UInt8.toNat_inj]
    simp only [UInt32.toNat_toUInt8,UInt32.toNat_shiftRight,Nat.shiftRight_eq_div_pow,value,UInt32.reduceToNat,
      Nat.reduceMod,Nat.reducePow]
    omega

theorem mappedBytes (addr : Vector UInt8 4) : (mapped addr)[12] = addr[0] ∧ (mapped addr)[13] = addr[1] ∧
    (mapped addr)[14] = addr[2] ∧ (mapped addr)[15] = addr[3] := ⟨rfl,rfl,rfl,rfl⟩

theorem vectorFour (addr : Vector UInt8 4) : #v[addr[0],addr[1],addr[2],addr[3]] = addr := by
  refine Vector.ext fun i small => ?_
  interval_cases i <;> rfl

theorem rebuiltWord (a b c d : UInt8) :
    htonl order (a.toUInt32 <<< 24 + b.toUInt32 <<< 16 + c.toUInt32 <<< 8 + d.toUInt32) = inAddr order #v[a,b,c,d] := by
  obtain ⟨first,second,third,fourth⟩ := shiftedBytes a b c d
  simp only [htonl,first,second,third,fourth]

theorem mappedWord (addr : Vector UInt8 4) : mappedAddr order (mapped addr) = inAddr order addr := by
  obtain ⟨a,b,c,d⟩ := mappedBytes addr
  unfold mappedAddr
  rw [a,b,c,d,rebuiltWord,vectorFour]

theorem mappedIff (p : Vector UInt8 16) : v4Mapped p = true ↔ ∃ addr, p = mapped addr := by
  constructor
  · intro test
    refine ⟨#v[p[12],p[13],p[14],p[15]],Vector.ext fun i small => ?_⟩
    rw [v4Mapped,Bool.and_eq_true,Bool.and_eq_true,beq_iff_eq,beq_iff_eq,List.all_eq_true] at test
    obtain ⟨⟨zeros,eleventh⟩,twelfth⟩ := test
    have zero (j : Nat) (low : j < 10) : p[j] = 0 := by
      refine beq_iff_eq.mp (zeros _ (List.mem_take_iff_getElem.mpr ⟨j,?_,?_⟩))
      · rw [Vector.length_toList]
        omega
      · exact Vector.getElem_toList _
    by_cases low : i < 10
    · rw [zero i low]
      interval_cases i <;> rfl
    · interval_cases i
      · exact eleventh
      · exact twelfth
      all_goals rfl
  · rintro ⟨addr,rfl⟩
    rfl

end words

section rules
variable (order : ByteOrder)

theorem access4Iff (addr : Vector UInt8 4) (rules : List (Cidr 4)) :
    access4 order (inAddr order addr) rules = .ok ↔ ∃ rule ∈ rules, rule.Covers addr := by
  induction rules with
  | nil => simp [access4]
  | cons a rest ih =>
    rw [access4]
    split
    · rename_i hit
      exact iff_of_true rfl ⟨a,List.mem_cons_self,(inAddrCovers order addr a).mp (beq_iff_eq.mp hit)⟩
    · rename_i missed
      rw [ih,List.exists_mem_cons_iff,← inAddrCovers order addr a]
      exact (or_iff_right fun hit => missed (beq_iff_eq.mpr hit)).symm

theorem matches6Iff (p : Vector UInt8 16) (a : Cidr 16) (n : Nat) :
    matches6 p a n = true ↔ ∀ i : Fin 16, n ≤ i.val → p[i] &&& a.mask[i] = a.addr[i] := by
  fun_induction matches6 p a n with
  | case1 n within differs =>
    refine iff_of_false Bool.false_ne_true fun all => ?_
    exact (bne_iff_ne.mp differs) (all ⟨n,within⟩ le_rfl)
  | case2 n within same ih =>
    rw [ih]
    refine ⟨fun later i reached => ?_,fun all i reached => all i (Nat.le_of_succ_le reached)⟩
    rcases Nat.eq_or_lt_of_le reached with here | further
    · have byte : p[n] &&& a.mask[n] = a.addr[n] := by simpa using same
      obtain ⟨i,small⟩ := i
      cases here
      exact byte
    · exact later i further
  | case3 n beyond => exact iff_of_true rfl fun i reached => absurd (Nat.lt_of_le_of_lt reached i.isLt) beyond

theorem access6Iff (p : Vector UInt8 16) (rules : List (Cidr 16)) :
    access6Loop p rules = .ok ↔ ∃ rule ∈ rules, rule.Covers p := by
  have covers (a : Cidr 16) : matches6 p a 0 = true ↔ a.Covers p :=
    (matches6Iff p a 0).trans (forall_congr' fun i => forall_prop_of_true (Nat.zero_le _))
  induction rules with
  | nil => simp [access6Loop]
  | cons a rest ih =>
    rw [access6Loop]
    split
    · rename_i hit
      exact iff_of_true rfl ⟨a,List.mem_cons_self,(covers a).mp hit⟩
    · rename_i missed
      rw [List.exists_mem_cons_iff,← covers a]
      exact ih.trans (or_iff_right missed).symm

end rules

/- The verdicts are membership of the address in a configured network; the host's
byte order is not in them. -/
theorem accessMembership (order : ByteOrder) (access : Option (List (Cidr 4))) (access6 : Option (List (Cidr 16))) :
    (∀ addr, purgeAccess order access access6 (.inet addr) = .ok ↔
      ∃ rules, access = some rules ∧ ∃ rule ∈ rules, rule.Covers addr) ∧
    (∀ p, (¬ (∃ addr, p = mapped addr) ∨ access = none) → (purgeAccess order access access6 (.inet6 p) = .ok ↔
      ∃ rules, access6 = some rules ∧ ∃ rule ∈ rules, rule.Covers p)) ∧
    ∀ addr, access.isSome → purgeAccess order access access6 (.inet6 (mapped addr)) =
      purgeAccess order access access6 (.inet addr) := by
  refine ⟨fun addr => ?_,fun p other => ?_,fun addr listed => ?_⟩
  · cases access with
    | none => simp [purgeAccess]
    | some rules => simp [purgeAccess,access4Iff]
  · have six : purgeAccess order access access6 (.inet6 p) = match access6 with
        | none => .declined
        | some rules => access6Loop p rules := by
      rcases other with plain | rfl
      · have test : v4Mapped p = false := Bool.not_eq_true _ ▸ mt (mappedIff p).mp plain
        simp [purgeAccess,test]
      · simp [purgeAccess]
    rw [six]
    cases access6 with
    | none => simp
    | some rules => simp [access6Iff]
  · obtain ⟨rules,rfl⟩ := Option.isSome_iff_exists.mp listed
    have test := (mappedIff (mapped addr)).mpr ⟨addr,rfl⟩
    simp [purgeAccess,test,mappedWord]

end CachePurge
