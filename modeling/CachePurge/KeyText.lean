import CachePurge.General.Codes
import CachePurge.Response

/-! Which keys ngx_http_cache_purge_text_key takes for text. Its loop reads one
character after another; the core's decoder looks at the lead byte, at the length and at
the value, and of the later bytes only whether they are below 0x80. So the keys that
are accepted are those made up of allowed characters in that spelling, which is UTF-8
only where no later byte is above 0xbf. -/
namespace CachePurge
open General

/- A character in the spelling that the decoder reads, with its value. -/
def spelled : Bytes → Option Nat
  | [a] => if a < 0x80 then some a.toNat else none
  | [u,i] => if 0xc2 ≤ u ∧ u < 0xe0 ∧ 0x80 ≤ i then some (u.toNat % 32 * 64 + i.toNat % 64) else none
  | [u,i,j] =>
    let value := (u.toNat % 16 * 64 + i.toNat % 64) * 64 + j.toNat % 64
    if 0xe0 ≤ u ∧ u < 0xf0 ∧ 0x80 ≤ i ∧ 0x80 ≤ j ∧ 0x7ff < value then some value else none
  | [u,i,j,k] =>
    let value := ((u.toNat % 8 * 64 + i.toNat % 64) * 64 + j.toNat % 64) * 64 + k.toNat % 64
    if 0xf0 ≤ u ∧ u < 0xf8 ∧ 0x80 ≤ i ∧ 0x80 ≤ j ∧ 0x80 ≤ k ∧ 0xffff < value then some value else none
  | _ => none

/- What the core documents of ngx_utf8_decode: a value above 0x10ffff is an error, and
no byte is read past the n that it is given. -/
structure Utf8Decodes (decode : (Nat → UInt8) → Nat → Nat → DecodeStep) : Prop where
  reads : ∀ mem p n, 0 < n → ∀ a ∈ (decode mem p n).reads, p ≤ a ∧ a < p + n
  decodes : ∀ mem p n k value, 1 < k → k ≤ n → spelled (Str.bytes ⟨mem,p,k⟩) = some value →
    (decode mem p n).value.toNat = value ∧ (decode mem p n).next = p + k
  rejects : ∀ mem p n, 0 < n → (∀ k, 1 < k → k ≤ n → spelled (Str.bytes ⟨mem,p,k⟩) = none) →
    0x10ffff < (decode mem p n).value.toNat

def XmlChar (c : Nat) : Prop :=
  c = 0x9 ∨ c = 0xa ∨ c = 0xd ∨ (0x20 ≤ c ∧ c ≤ 0xd7ff) ∨ (0xe000 ≤ c ∧ c ≤ 0xfffd) ∨ (0x10000 ≤ c ∧ c ≤ 0x10ffff)

def XmlText (s : Bytes) : Prop :=
  ∃ chars : List Char, (∀ c ∈ chars, XmlChar c.toNat) ∧ chars.flatMap String.utf8EncodeChar = s

def readWords : Set Bytes := {w | ∃ c, spelled w = some c ∧ XmlChar c}

def xmlWords : Set Bytes := {w | ∃ c : Char, XmlChar c.toNat ∧ String.utf8EncodeChar c = w}

theorem forbiddenXml (c : UInt32) : forbidden c = false ↔ XmlChar c.toNat := by
  simp only [forbidden,XmlChar,Bool.or_eq_false_iff,Bool.and_eq_false_iff,decide_eq_false_iff_not,
    UInt32.lt_iff_toNat_lt,UInt32.le_iff_toNat_le,beq_eq_false_iff_ne,ne_eq,bne_eq_false_iff_eq,← UInt32.toNat_inj]
  simp only [UInt32.reduceToNat]
  omega

theorem xmlTextSentence (s : Bytes) : XmlText s ↔ Sentence xmlWords s := by
  constructor
  · rintro ⟨chars,allowed,rfl⟩
    refine ⟨chars.map String.utf8EncodeChar,fun w member => ?_,by rw [List.flatMap_def]⟩
    obtain ⟨c,inside,rfl⟩ := List.mem_map.mp member
    exact ⟨c,allowed c inside,rfl⟩
  · rintro ⟨words,inside,rfl⟩
    induction words with
    | nil => exact ⟨[],by simp,rfl⟩
    | cons w words ih =>
      obtain ⟨c,allowed,rfl⟩ := inside w List.mem_cons_self
      obtain ⟨chars,later,rest⟩ := ih fun w member => inside w (List.mem_cons_of_mem _ member)
      refine ⟨c :: chars,fun d member => ?_,by rw [List.flatMap_cons,List.flatten_cons,rest]⟩
      rcases List.mem_cons.mp member with rfl | member
      · exact allowed
      · exact later d member

inductive Spelling : Bytes → Nat → Prop where
  | one {a : UInt8} (ascii : a.toNat < 0x80) : Spelling [a] a.toNat
  | two {u i : UInt8} (lead : 0xc2 ≤ u.toNat ∧ u.toNat < 0xe0) (later : 0x80 ≤ i.toNat) :
      Spelling [u,i] (u.toNat % 32 * 64 + i.toNat % 64)
  | three {u i j : UInt8} (lead : 0xe0 ≤ u.toNat ∧ u.toNat < 0xf0) (later : 0x80 ≤ i.toNat ∧ 0x80 ≤ j.toNat)
      (needed : 0x7ff < (u.toNat % 16 * 64 + i.toNat % 64) * 64 + j.toNat % 64) :
      Spelling [u,i,j] ((u.toNat % 16 * 64 + i.toNat % 64) * 64 + j.toNat % 64)
  | four {u i j k : UInt8} (lead : 0xf0 ≤ u.toNat ∧ u.toNat < 0xf8)
      (later : 0x80 ≤ i.toNat ∧ 0x80 ≤ j.toNat ∧ 0x80 ≤ k.toNat)
      (needed : 0xffff < ((u.toNat % 8 * 64 + i.toNat % 64) * 64 + j.toNat % 64) * 64 + k.toNat % 64) :
      Spelling [u,i,j,k] (((u.toNat % 8 * 64 + i.toNat % 64) * 64 + j.toNat % 64) * 64 + k.toNat % 64)

theorem spelledSpelling {w : Bytes} {c : Nat} : spelled w = some c ↔ Spelling w c := by
  constructor
  · intro read
    unfold spelled at read
    simp only [UInt8.lt_iff_toNat_lt,UInt8.le_iff_toNat_le,UInt8.reduceToNat] at read
    split at read
    · split at read
      · cases Option.some.inj read
        exact .one (by assumption)
      · contradiction
    · split at read
      · rename_i _ shape
        cases Option.some.inj read
        exact .two ⟨shape.1,shape.2.1⟩ shape.2.2
      · contradiction
    · split at read
      · rename_i _ shape
        cases Option.some.inj read
        exact .three ⟨shape.1,shape.2.1⟩ ⟨shape.2.2.1,shape.2.2.2.1⟩ shape.2.2.2.2
      · contradiction
    · split at read
      · rename_i _ shape
        cases Option.some.inj read
        exact .four ⟨shape.1,shape.2.1⟩ ⟨shape.2.2.1,shape.2.2.2.1,shape.2.2.2.2.1⟩ shape.2.2.2.2.2
      · contradiction
    · contradiction
  · intro spelling
    cases spelling with
    | one ascii => simp [spelled,UInt8.lt_iff_toNat_lt,ascii]
    | two lead later => simp [spelled,UInt8.lt_iff_toNat_lt,UInt8.le_iff_toNat_le,lead,later]
    | three lead later needed => simp [spelled,UInt8.lt_iff_toNat_lt,UInt8.le_iff_toNat_le,lead,later,needed]
    | four lead later needed => simp [spelled,UInt8.lt_iff_toNat_lt,UInt8.le_iff_toNat_le,lead,later,needed]

def spelledSize (u : Nat) : Nat := if u < 0x80 then 1 else if u < 0xe0 then 2 else if u < 0xf0 then 3 else 4

theorem spellingLead {w : Bytes} {c : Nat} (spelling : Spelling w c) :
    ∃ u rest, w = u :: rest ∧ w.length = spelledSize u.toNat := by
  cases spelling with
  | one ascii => exact ⟨_,_,rfl,by simp [spelledSize,ascii]⟩
  | two lead _ =>
    refine ⟨_,_,rfl,?_⟩
    rw [spelledSize,if_neg (by omega),if_pos lead.2]
    rfl
  | three lead _ _ =>
    refine ⟨_,_,rfl,?_⟩
    rw [spelledSize,if_neg (by omega),if_neg (by omega),if_pos lead.2]
    rfl
  | four lead _ _ =>
    refine ⟨_,_,rfl,?_⟩
    rw [spelledSize,if_neg (by omega),if_neg (by omega),if_neg (by omega)]
    rfl

theorem readWordsFree : PrefixFree readWords := by
  constructor
  · rintro ⟨c,read,_⟩
    contradiction
  · rintro v ⟨c,readV,_⟩ w ⟨d,readW,_⟩ begins
    obtain ⟨u,rest,rfl,size⟩ := spellingLead (spelledSpelling.mp readV)
    obtain ⟨u',rest',rfl,size'⟩ := spellingLead (spelledSpelling.mp readW)
    obtain ⟨rfl,_⟩ := List.cons_prefix_cons.mp begins
    exact begins.eq_of_length (size.trans size'.symm)

theorem byteOf {n : Nat} (small : n < 256) : (UInt8.ofNat n).toNat = n := by
  rw [UInt8.toNat_ofNat']
  exact Nat.mod_eq_of_lt small

theorem charBound (c : Char) : c.toNat < 0x110000 := by
  rcases c.valid with low | ⟨_,high⟩
  · exact Nat.lt_trans low (by decide)
  · exact high

theorem encodeSpelled (c : Char) : Spelling (String.utf8EncodeChar c) c.toNat ∧
    ∀ b ∈ (String.utf8EncodeChar c).tail, b.toNat < 0xc0 := by
  have bound := charBound c
  have value : c.val.toNat = c.toNat := rfl
  unfold String.utf8EncodeChar
  rw [value]
  generalize c.toNat = v at bound ⊢
  have later (n : Nat) : (UInt8.ofNat (n % 64 + 128)).toNat = n % 64 + 128 := byteOf (by omega)
  dsimp only
  split
  · have ascii : (UInt8.ofNat v).toNat = v := byteOf (by omega)
    have spelling := @Spelling.one (UInt8.ofNat v) (by omega)
    rw [ascii] at spelling
    exact ⟨spelling,by simp⟩
  split
  · have lead : (UInt8.ofNat (v / 64 % 32 + 192)).toNat = v / 64 % 32 + 192 := byteOf (by omega)
    have spelling := @Spelling.two (UInt8.ofNat (v / 64 % 32 + 192)) (UInt8.ofNat (v % 64 + 128))
      (by rw [lead]; omega) (by rw [later]; omega)
    have same : (v / 64 % 32 + 192) % 32 * 64 + (v % 64 + 128) % 64 = v := by omega
    rw [lead,later,same] at spelling
    refine ⟨spelling,?_⟩
    simp only [List.tail_cons,List.mem_singleton,forall_eq,later]
    omega
  split
  · have lead : (UInt8.ofNat (v / 4096 % 16 + 224)).toNat = v / 4096 % 16 + 224 := byteOf (by omega)
    have same : ((v / 4096 % 16 + 224) % 16 * 64 + (v / 64 % 64 + 128) % 64) * 64 + (v % 64 + 128) % 64 = v := by
      omega
    have spelling := @Spelling.three (UInt8.ofNat (v / 4096 % 16 + 224)) (UInt8.ofNat (v / 64 % 64 + 128))
      (UInt8.ofNat (v % 64 + 128)) (by rw [lead]; omega) (by rw [later,later]; omega)
      (by rw [lead,later,later,same]; omega)
    rw [lead,later,later,same] at spelling
    refine ⟨spelling,?_⟩
    simp only [List.tail_cons,List.mem_cons,List.not_mem_nil,or_false,forall_eq_or_imp,forall_eq,later]
    omega
  · have lead : (UInt8.ofNat (v / 262144 % 8 + 240)).toNat = v / 262144 % 8 + 240 := byteOf (by omega)
    have same : (((v / 262144 % 8 + 240) % 8 * 64 + (v / 4096 % 64 + 128) % 64) * 64 +
        (v / 64 % 64 + 128) % 64) * 64 + (v % 64 + 128) % 64 = v := by omega
    have spelling := @Spelling.four (UInt8.ofNat (v / 262144 % 8 + 240)) (UInt8.ofNat (v / 4096 % 64 + 128))
      (UInt8.ofNat (v / 64 % 64 + 128)) (UInt8.ofNat (v % 64 + 128)) (by rw [lead]; omega)
      (by rw [later,later,later]; omega) (by rw [lead,later,later,later,same]; omega)
    rw [lead,later,later,later,same] at spelling
    refine ⟨spelling,?_⟩
    simp only [List.tail_cons,List.mem_cons,List.not_mem_nil,or_false,forall_eq_or_imp,forall_eq,later]
    omega

theorem byteSame {n : Nat} {b : UInt8} (same : n = b.toNat) : UInt8.ofNat n = b := by
  rw [same,UInt8.ofNat_toNat]

theorem spellingEncoded {w : Bytes} {v : Nat} (spelling : Spelling w v) (allowed : XmlChar v)
    (tail : ∀ b ∈ w.tail, b.toNat < 0xc0) : ∃ c : Char, c.toNat = v ∧ String.utf8EncodeChar c = w := by
  have valid : v.isValidChar := by
    simp only [Nat.isValidChar,XmlChar] at allowed ⊢
    omega
  have value : (Char.ofNat v).toNat = v := by
    rw [Char.ofNat,dif_pos valid]
    rfl
  refine ⟨Char.ofNat v,value,?_⟩
  have value' : (Char.ofNat v).val.toNat = v := value
  unfold String.utf8EncodeChar
  rw [value']
  dsimp only
  cases spelling with
  | one ascii =>
    rw [if_pos (by omega),byteSame rfl]
  | @two u i lead later =>
    have last := tail i (by simp)
    rw [if_neg (by omega),if_pos (by omega),byteSame (show _ = u.toNat by omega),byteSame (show _ = i.toNat by omega)]
  | @three u i j lead later needed =>
    have first := tail i (by simp)
    have last := tail j (by simp)
    rw [if_neg (by omega),if_neg (by omega),if_pos (by omega),byteSame (show _ = u.toNat by omega),
      byteSame (show _ = i.toNat by omega),byteSame (show _ = j.toNat by omega)]
  | @four u i j k lead later needed =>
    have first := tail i (by simp)
    have second := tail j (by simp)
    have last := tail k (by simp)
    rw [if_neg (by omega),if_neg (by omega),if_neg (by omega),byteSame (show _ = u.toNat by omega),
      byteSame (show _ = i.toNat by omega),byteSame (show _ = j.toNat by omega),byteSame (show _ = k.toNat by omega)]

theorem xmlWordsInside : xmlWords ⊆ readWords := by
  rintro w ⟨c,allowed,rfl⟩
  exact ⟨c.toNat,spelledSpelling.mpr (encodeSpelled c).1,allowed⟩

theorem xmlWordsTail {w : Bytes} : w ∈ xmlWords ↔ w ∈ readWords ∧ ∀ b ∈ w.tail, b.toNat < 0xc0 := by
  constructor
  · intro word
    refine ⟨xmlWordsInside word,?_⟩
    obtain ⟨c,_,rfl⟩ := word
    exact (encodeSpelled c).2
  · rintro ⟨⟨v,read,allowed⟩,tail⟩
    obtain ⟨c,rfl,same⟩ := spellingEncoded (spelledSpelling.mp read) allowed tail
    exact ⟨c,allowed,same⟩

section memory
variable (mem : Nat → UInt8) (p : Nat)

theorem strSplit (k n : Nat) :
    Str.bytes ⟨mem,p,k + n⟩ = Str.bytes ⟨mem,p,k⟩ ++ Str.bytes ⟨mem,p + k,n⟩ := by
  simp only [Str.bytes,List.range_add,List.map_append,List.map_map]
  congr 1
  exact List.map_congr_left fun i _ => by simp only [Function.comp,Nat.add_assoc]

theorem strPrefix {mem : Nat → UInt8} {p n : Nat} {w : Bytes} (begins : w <+: Str.bytes ⟨mem,p,n⟩) :
    w.length ≤ n ∧ w = Str.bytes ⟨mem,p,w.length⟩ := by
  have short : w.length ≤ n := by
    have le := begins.length_le
    rwa [strLength] at le
  have whole := strSplit mem p w.length (n - w.length)
  rw [Nat.add_sub_cancel' short] at whole
  rw [whole] at begins
  have size : w.length = (Str.bytes ⟨mem,p,w.length⟩).length := by rw [strLength]
  exact ⟨short,(List.prefix_of_prefix_length_le begins (List.prefix_append _ _) (Nat.le_of_eq size)).eq_of_length size⟩

theorem strSome {n : Nat} (some_ : 0 < n) : Str.bytes ⟨mem,p,n⟩ ≠ [] := by
  intro empty
  have none_ := congrArg List.length empty
  simp only [strLength,List.length_nil] at none_
  omega

theorem wordAt {mem : Nat → UInt8} {p n : Nat} {w : Bytes} {v : Nat} (spelling : Spelling w v)
    (begins : w <+: Str.bytes ⟨mem,p,n⟩) : w.length = spelledSize (mem p).toNat := by
  obtain ⟨u,rest,rfl,size⟩ := spellingLead spelling
  have same := (strPrefix begins).2
  rw [List.length_cons,Nat.add_comm,strSplit] at same
  have first : u = mem p := (List.cons.inj same).1
  rw [size,first]

end memory

section loop
variable {decode : (Nat → UInt8) → Nat → Nat → DecodeStep} (core : Utf8Decodes decode)
  (mem : Nat → UInt8) {limit p : Nat}

def textStep (decode : (Nat → UInt8) → Nat → Nat → DecodeStep) (mem : Nat → UInt8) (limit p : Nat) : DecodeStep :=
  if mem p < 0x80 then ⟨(mem p).toUInt32,p + 1,[p]⟩
  else {decode mem p (limit - p) with reads := p :: (decode mem p (limit - p)).reads}

theorem textStepAscii {mem : Nat → UInt8} (ascii : (mem p).toNat < 0x80) :
    textStep decode mem limit p = ⟨(mem p).toUInt32,p + 1,[p]⟩ :=
  if_pos (UInt8.lt_iff_toNat_lt.mpr ascii)

theorem textStepLong {mem : Nat → UInt8} (long : 0x80 ≤ (mem p).toNat) : textStep decode mem limit p =
    {decode mem p (limit - p) with reads := p :: (decode mem p (limit - p)).reads} :=
  if_neg fun ascii => by
    have low := UInt8.lt_iff_toNat_lt.mp ascii
    simp only [UInt8.reduceToNat] at low
    omega

theorem textLoopOver {mem : Nat → UInt8} {fuel : Nat} {past : List Nat} (last : ¬ p < limit) :
    textLoop decode mem limit fuel p past = some (true,past) := by
  unfold textLoop
  rw [if_neg last]

theorem textLoopTurn {mem : Nat → UInt8} {fuel : Nat} {past : List Nat} (inside : p < limit) :
    textLoop decode mem limit (fuel + 1) p past =
      if forbidden (textStep decode mem limit p).value then some (false,past ++ (textStep decode mem limit p).reads)
      else textLoop decode mem limit fuel (textStep decode mem limit p).next
        (past ++ (textStep decode mem limit p).reads) := by
  rw [textLoop,if_pos inside]
  rfl

include core

theorem textStepReads (inside : p < limit) : ∀ a ∈ (textStep decode mem limit p).reads, p ≤ a ∧ a < limit := by
  intro a member
  rcases Nat.lt_or_ge (mem p).toNat 0x80 with ascii | long
  · rw [textStepAscii ascii] at member
    cases List.mem_singleton.mp member
    exact ⟨Nat.le_refl p,inside⟩
  · rw [textStepLong long] at member
    rcases List.mem_cons.mp member with rfl | member
    · exact ⟨Nat.le_refl a,inside⟩
    · have within := core.reads mem p (limit - p) (by omega) a member
      omega

theorem textStepValue (inside : p < limit) :
    (∃ k value, p + k ≤ limit ∧ 0 < k ∧ Spelling (Str.bytes ⟨mem,p,k⟩) value ∧
      (textStep decode mem limit p).value.toNat = value ∧ (textStep decode mem limit p).next = p + k) ∨
    ((∀ w value, Spelling w value → ¬ w <+: Str.bytes ⟨mem,p,limit - p⟩) ∧
      0x10ffff < (textStep decode mem limit p).value.toNat) := by
  rcases Nat.lt_or_ge (mem p).toNat 0x80 with ascii | long
  · rw [textStepAscii ascii]
    exact .inl ⟨1,(mem p).toNat,by omega,by omega,.one ascii,by simp,rfl⟩
  rw [textStepLong long]
  by_cases found : ∃ k, 1 < k ∧ k ≤ limit - p ∧ spelled (Str.bytes ⟨mem,p,k⟩) ≠ none
  · obtain ⟨k,more,within,read⟩ := found
    obtain ⟨value,read⟩ := Option.ne_none_iff_exists'.mp read
    obtain ⟨same,next⟩ := core.decodes mem p (limit - p) k value more within read
    exact .inl ⟨k,value,by omega,by omega,spelledSpelling.mp read,same,next⟩
  · refine .inr ⟨fun w value spelling begins => found ?_,core.rejects mem p (limit - p) (by omega) fun k more within => ?_⟩
    · obtain ⟨short,same⟩ := strPrefix begins
      refine ⟨w.length,?_,short,?_⟩
      · rw [wordAt spelling begins,spelledSize,if_neg (by omega)]
        split
        · omega
        · split <;> omega
      · rw [← same,spelledSpelling.mpr spelling]
        simp
    · by_contra read
      exact found ⟨k,more,within,read⟩

theorem textTurn (inside : p < limit) :
    (forbidden (textStep decode mem limit p).value = false ∧ ∃ k, 0 < k ∧ p + k ≤ limit ∧
      (textStep decode mem limit p).next = p + k ∧ Str.bytes ⟨mem,p,k⟩ ∈ readWords) ∨
    (forbidden (textStep decode mem limit p).value = true ∧
      ¬ Sentence readWords (Str.bytes ⟨mem,p,limit - p⟩)) := by
  have some_ : Str.bytes ⟨mem,p,limit - p⟩ ≠ [] := strSome mem p (by omega)
  rcases textStepValue core mem inside with ⟨k,value,within,more,spelling,same,next⟩ | ⟨absent,high⟩
  · cases allowed : forbidden (textStep decode mem limit p).value with
    | false =>
      exact .inl ⟨rfl,k,more,within,next,value,spelledSpelling.mpr spelling,same ▸ (forbiddenXml _).mp allowed⟩
    | true =>
      refine .inr ⟨rfl,sentenceStuck some_ fun w word begins => ?_⟩
      obtain ⟨other,read,fine⟩ := word
      have rest := strSplit mem p k (limit - p - k)
      rw [Nat.add_sub_cancel' (by omega)] at rest
      have size := wordAt (spelledSpelling.mp read) begins
      rw [← wordAt (n := limit - p) spelling (by rw [rest]; exact List.prefix_append _ _),strLength] at size
      have mine := (strPrefix begins).2
      rw [size] at mine
      rw [mine,spelledSpelling.mpr spelling] at read
      cases Option.some.inj read
      rw [← same] at fine
      rw [(forbiddenXml _).mpr fine] at allowed
      contradiction
  · refine .inr ⟨?_,sentenceStuck some_ fun w word => ?_⟩
    · by_contra fine
      have allowed := (forbiddenXml _).mp (Bool.not_eq_true _ ▸ fine)
      simp only [XmlChar] at allowed
      omega
    · obtain ⟨value,read,_⟩ := word
      exact absent w value (spelledSpelling.mp read)

theorem textLoopReads (limit fuel p : Nat) (past : List Nat) (enough : limit - p ≤ fuel)
    (bound : p ≤ limit) : ∃ answer reads, textLoop decode mem limit fuel p past = some (answer,past ++ reads) ∧
      (∀ a ∈ reads, p ≤ a ∧ a < limit) ∧ (answer = true ↔ Sentence readWords (Str.bytes ⟨mem,p,limit - p⟩)) := by
  induction fuel generalizing p past with
  | zero =>
    have none_ : limit - p = 0 := by omega
    rw [none_,textLoopOver (by omega)]
    exact ⟨true,[],by simp,by simp,iff_of_true rfl sentenceNil⟩
  | succ fuel ih =>
    by_cases inside : p < limit
    · have near := textStepReads core mem inside
      rcases textTurn core mem inside with ⟨allowed,k,more,within,next,word⟩ | ⟨refused,absent⟩
      · obtain ⟨answer,reads,done,later,accepted⟩ := ih (p + k) (past ++ (textStep decode mem limit p).reads)
          (by omega) within
        rw [textLoopTurn inside,allowed,if_neg Bool.false_ne_true,next,done,List.append_assoc]
        refine ⟨answer,_,rfl,fun a member => ?_,?_⟩
        · rcases List.mem_append.mp member with now | after
          · exact near a now
          · have bounds := later a after
            omega
        · have rest := strSplit mem p k (limit - (p + k))
          rw [show k + (limit - (p + k)) = limit - p by omega] at rest
          rw [accepted,rest,readWordsFree.sentenceCons word]
      · rw [textLoopTurn inside,refused,if_pos rfl]
        exact ⟨false,_,rfl,near,iff_of_false Bool.false_ne_true absent⟩
    · have none_ : limit - p = 0 := by omega
      rw [none_,textLoopOver inside]
      exact ⟨true,[],by simp,by simp,iff_of_true rfl sentenceNil⟩

theorem textKeyReads (key : Str) : ∃ answer reads, textKey decode key = some (answer,reads) ∧
    (∀ a ∈ reads, key.data ≤ a ∧ a < key.data + key.len) ∧ (answer = true ↔ Sentence readWords key.bytes) := by
  obtain ⟨answer,reads,done,near,accepted⟩ :=
    textLoopReads core key.mem (key.data + key.len) key.len key.data [] (by omega) (by omega)
  rw [Nat.add_sub_cancel_left] at accepted
  exact ⟨answer,reads,done,near,accepted⟩

end loop

def IllSpelled (key : Bytes) : Prop := ∃ words : List Bytes, (∀ w ∈ words, w ∈ readWords) ∧ words.flatten = key ∧
  ∃ w ∈ words, ∃ b ∈ w.tail, 0xc0 ≤ b.toNat

theorem sentenceXml (key : Bytes) : XmlText key ↔ Sentence readWords key ∧ ¬ IllSpelled key := by
  rw [xmlTextSentence]
  constructor
  · rintro ⟨words,inside,rfl⟩
    refine ⟨⟨words,fun w member => xmlWordsInside (inside w member),rfl⟩,?_⟩
    rintro ⟨words',inside',same,w,member,b,later,high⟩
    have text : Sentence xmlWords words'.flatten := ⟨words,inside,same.symm⟩
    have low := (xmlWordsTail.mp (readWordsFree.wordsInside xmlWordsInside inside' text w member)).2 b later
    omega
  · rintro ⟨⟨words,inside,same⟩,sound⟩
    refine ⟨words,fun w member => xmlWordsTail.mpr ⟨inside w member,fun b later => ?_⟩,same⟩
    by_contra high
    exact sound ⟨words,inside,same,w,member,b,later,Nat.le_of_not_lt high⟩

/- An accepted key is XML text and nothing past it is read, exactly where the key is not
allowed characters with a later byte above 0xbf. -/
theorem textKeyIsText {decode : (Nat → UInt8) → Nat → Nat → DecodeStep} (core : Utf8Decodes decode) (key : Str) :
    (∃ answer reads, textKey decode key = some (answer,reads) ∧
      (∀ a ∈ reads, key.data ≤ a ∧ a < key.data + key.len) ∧ (answer = true → XmlText key.bytes)) ↔
    ¬ IllSpelled key.bytes := by
  obtain ⟨answer,reads,done,near,accepted⟩ := textKeyReads core key
  constructor
  · rintro ⟨answer',reads',done',_,text⟩ ⟨words,inside,same,bad⟩
    cases Option.some.inj (done.symm.trans done')
    have sentence : Sentence readWords key.bytes := ⟨words,inside,same⟩
    exact ((sentenceXml _).mp (text (accepted.mpr sentence))).2 ⟨words,inside,same,bad⟩
  · intro sound
    exact ⟨answer,reads,done,near,fun yes => (sentenceXml _).mpr ⟨accepted.mp yes,sound⟩⟩

def coreDecode (mem : Nat → UInt8) (p n : Nat) : DecodeStep :=
  match [2,3,4].find? fun k => k ≤ n && (spelled (Str.bytes ⟨mem,p,k⟩)).isSome with
  | some k => ⟨((spelled (Str.bytes ⟨mem,p,k⟩)).getD 0).toUInt32,p + k,(List.range k).map (p + ·)⟩
  | none => ⟨0xffffffff,p + 1,[p]⟩

theorem spellingSmall {w : Bytes} {v : Nat} (spelling : Spelling w v) : v < 0x200000 := by
  cases spelling <;> omega

theorem coreFinds {mem : Nat → UInt8} {p n k : Nat}
    (found : ([2,3,4].find? fun k => k ≤ n && (spelled (Str.bytes ⟨mem,p,k⟩)).isSome) = some k) :
    1 < k ∧ k ≤ n ∧ ∃ value, spelled (Str.bytes ⟨mem,p,k⟩) = some value := by
  have passed := List.find?_some found
  obtain ⟨below,there⟩ := Bool.and_eq_true_iff.mp passed
  have listed := List.mem_of_find?_eq_some found
  simp only [List.mem_cons,List.not_mem_nil,or_false] at listed
  exact ⟨by omega,of_decide_eq_true below,Option.isSome_iff_exists.mp there⟩

theorem coreDecodes : Utf8Decodes coreDecode := by
  refine ⟨fun mem p n some_ a member => ?_,fun mem p n k value more within read => ?_,fun mem p n some_ none_ => ?_⟩
  · unfold coreDecode at member
    split at member
    · rename_i k found
      have short := (coreFinds found).2.1
      obtain ⟨i,low,rfl⟩ := List.mem_map.mp member
      rw [List.mem_range] at low
      omega
    · cases List.mem_singleton.mp member
      omega
  · have spelling := spelledSpelling.mp read
    have begins {j : Nat} (below : j ≤ n) : Str.bytes ⟨mem,p,j⟩ <+: Str.bytes ⟨mem,p,n⟩ := by
      have whole := strSplit mem p j (n - j)
      rw [Nat.add_sub_cancel' below] at whole
      rw [whole]
      exact List.prefix_append _ _
    have size := wordAt spelling (begins within)
    rw [strLength] at size
    have listed : k ∈ [2,3,4] := by
      simp only [spelledSize] at size
      simp only [List.mem_cons,List.not_mem_nil,or_false]
      split at size
      · omega
      split at size
      · omega
      split at size <;> omega
    unfold coreDecode
    split
    · rename_i j found
      obtain ⟨_,below,value',read'⟩ := coreFinds found
      have size' := wordAt (spelledSpelling.mp read') (begins below)
      rw [strLength] at size'
      have same : j = k := size'.trans size.symm
      subst same
      have small := spellingSmall spelling
      rw [read]
      refine ⟨?_,rfl⟩
      simp only [Option.getD_some,Nat.toUInt32,UInt32.toNat_ofNat']
      omega
    · rename_i absent
      have missed := List.find?_eq_none.mp absent k listed
      simp [within,read] at missed
  · unfold coreDecode
    split
    · rename_i k found
      obtain ⟨more,below,value,read⟩ := coreFinds found
      rw [none_ k more below] at read
      contradiction
    · exact (by decide : 0x10ffff < (0xffffffff : UInt32).toNat)

def strOf (s : Bytes) : Str := ⟨fun a => s.getD a 0,0,s.length⟩

theorem textKeyIsTextUtf8 : (∃ answer reads, textKey coreDecode (strOf [0xc3,0xa9]) = some (answer,reads) ∧
    (∀ a ∈ reads, (strOf [0xc3,0xa9]).data ≤ a ∧ a < (strOf [0xc3,0xa9]).data + (strOf [0xc3,0xa9]).len) ∧
    (answer = true → XmlText (strOf [0xc3,0xa9]).bytes)) ↔ ¬ IllSpelled (strOf [0xc3,0xa9]).bytes :=
  textKeyIsText coreDecodes (strOf [0xc3,0xa9])

theorem textKeyIllSpelled : ¬ ∀ decode : (Nat → UInt8) → Nat → Nat → DecodeStep, Utf8Decodes decode →
    ∀ key : Str, ∃ answer reads, textKey decode key = some (answer,reads) ∧
      (∀ a ∈ reads, key.data ≤ a ∧ a < key.data + key.len) ∧ (answer = true → XmlText key.bytes) := by
  intro always
  obtain ⟨answer,reads,done,_,text⟩ := always coreDecode coreDecodes (strOf [0xc2,0xff])
  have accepted : textKey coreDecode (strOf [0xc2,0xff]) = some (true,[0,0,1]) := by decide +kernel
  cases Option.some.inj (accepted.symm.trans done)
  refine ((sentenceXml _).mp (text rfl)).2 ⟨[[0xc2,0xff]],?_,by decide,[0xc2,0xff],by simp,0xff,by simp,by decide⟩
  intro w member
  rw [List.mem_singleton.mp member]
  exact ⟨0xbf,by decide,.inr (.inr (.inr (.inl ⟨by decide,by decide⟩)))⟩

end CachePurge
