import CachePurge.Bytes

/-! The generation key: p4:<namespace>:<epoch>:<generation>:<logical key>. The
epoch is the ten-digit number of the namespace's persistent marker file. -/
namespace CachePurge

def nameByte (c : UInt8) : Bool :=
  (97 ≤ c && c ≤ 122) || (65 ≤ c && c ≤ 90) || isDigit c || c == 95 || c == 45

structure Name where
  bytes : Bytes
  nonempty : bytes.length ≠ 0
  short : bytes.length ≤ 32
  legal : bytes.all nameByte = true
  deriving DecidableEq, Repr

structure Epoch where
  bytes : Bytes
  length : bytes.length = 10
  digits : bytes.all isDigit = true
  deriving DecidableEq, Repr

def siteName : Name := ⟨[115,105,116,101],by decide,by decide,by decide⟩

def siteEpoch : Epoch := ⟨[48,48,48,48,48,48,48,48,48,49],by decide,by decide⟩

def keyMagic : Bytes := [112,52,58]

def logicalKeyMax : Nat := 8096

structure Decoded where
  logical : Bytes
  epoch : Bytes
  generation : UInt64
  deriving DecidableEq, Repr

def generationDecode (name : Name) (key : Bytes) : Option Decoded :=
  let offset := 3 + name.bytes.length + 1 + 10 + 1 + 16 + 1
  if key.length < offset ∨ key.take 3 ≠ keyMagic ∨
      (key.drop 3).take name.bytes.length ≠ name.bytes ∨
      key[3 + name.bytes.length]? ≠ some colon then none
  else
    let epoch := key.drop (3 + name.bytes.length + 1)
    if epoch[10]? ≠ some colon ∨ epoch[27]? ≠ some colon then none
    else if !(epoch.take 10).all isDigit then none
    else match ((epoch.drop 11).take 16).foldlM hexStep 0 with
      | none => none
      | some generation => some ⟨key.drop offset,epoch.take 10,generation⟩

/- The ngx_sprintf of ngx_http_cache_purge_generation_key and the copied key. -/
def generationEncode (name : Name) (epoch : Epoch) (generation : UInt64) (logical : Bytes) : Bytes :=
  keyMagic ++ name.bytes ++ [colon] ++ epoch.bytes ++ [colon] ++
    hexDigits 16 generation.toNat ++ [colon] ++ logical

/- The part after the namespace: its fields have fixed widths, so every offset
the decoder uses lands on the byte the encoder put there. -/
def keyFields (epoch : Epoch) (generation : UInt64) (logical : Bytes) : Bytes :=
  epoch.bytes ++ (colon :: (hexDigits 16 generation.toNat ++ (colon :: logical)))

theorem encodeSplit (name epoch generation logical) :
    generationEncode name epoch generation logical =
      keyMagic ++ (name.bytes ++ (colon :: keyFields epoch generation logical)) := by
  simp [generationEncode,keyFields]

theorem encodeLength (name epoch generation logical) :
    (generationEncode name epoch generation logical).length =
      name.bytes.length + 32 + logical.length := by
  simp [generationEncode,keyMagic,epoch.length]
  omega

theorem encodeFields (name : Name) (epoch generation logical) :
    (generationEncode name epoch generation logical).drop (3 + name.bytes.length + 1) =
      keyFields epoch generation logical := by
  have cut : (keyMagic ++ (name.bytes ++ [colon])).length = 3 + name.bytes.length + 1 := by
    simp [keyMagic]; omega
  have split : generationEncode name epoch generation logical =
      (keyMagic ++ (name.bytes ++ [colon])) ++ keyFields epoch generation logical := by
    simp [generationEncode,keyFields]
  rw [split,← cut,List.drop_left]

theorem encodeNamed (name : Name) (epoch generation logical) :
    (generationEncode name epoch generation logical).take 3 = keyMagic ∧
    ((generationEncode name epoch generation logical).drop 3).take name.bytes.length = name.bytes ∧
    (generationEncode name epoch generation logical)[3 + name.bytes.length]? = some colon := by
  rw [encodeSplit]
  have rest : (keyMagic ++ (name.bytes ++ (colon :: keyFields epoch generation logical))).drop 3 =
      name.bytes ++ (colon :: keyFields epoch generation logical) := List.drop_left' rfl
  refine ⟨List.take_left' rfl,by rw [rest,List.take_left],?_⟩
  rw [List.getElem?_append_right (by simp [keyMagic])]
  simp [keyMagic]

theorem fieldColons (epoch : Epoch) (generation logical) :
    (keyFields epoch generation logical)[10]? = some colon ∧
    (keyFields epoch generation logical)[27]? = some colon := by
  constructor <;>
  · rw [keyFields,List.getElem?_append_right (by simp [epoch.length])]
    simp [epoch.length]

theorem fieldParts (epoch : Epoch) (generation logical) :
    (keyFields epoch generation logical).take 10 = epoch.bytes ∧
    ((keyFields epoch generation logical).drop 11).take 16 = hexDigits 16 generation.toNat ∧
    (keyFields epoch generation logical).drop 28 = logical := by
  have after : (keyFields epoch generation logical).drop 11 =
      hexDigits 16 generation.toNat ++ (colon :: logical) := by
    have split : keyFields epoch generation logical =
        (epoch.bytes ++ [colon]) ++ (hexDigits 16 generation.toNat ++ (colon :: logical)) := by
      simp [keyFields]
    rw [split,List.drop_left' (by simp [epoch.length])]
  refine ⟨List.take_left' epoch.length,by rw [after,List.take_left' (by simp)],?_⟩
  have more : (keyFields epoch generation logical).drop 28 =
      ((keyFields epoch generation logical).drop 11).drop 17 := by rw [List.drop_drop]
  have split : hexDigits 16 generation.toNat ++ (colon :: logical) =
      (hexDigits 16 generation.toNat ++ [colon]) ++ logical := by simp
  rw [more,after,split,List.drop_left' (by simp)]

theorem decodeEncode (name : Name) (epoch : Epoch) (generation : UInt64) (logical : Bytes) :
    generationDecode name (generationEncode name epoch generation logical) =
      some ⟨logical,epoch.bytes,generation⟩ := by
  obtain ⟨magic,named,after⟩ := encodeNamed name epoch generation logical
  obtain ⟨first,second⟩ := fieldColons epoch generation logical
  obtain ⟨digits,hex,rest⟩ := fieldParts epoch generation logical
  have fields := encodeFields name epoch generation logical
  have enough : ¬ (generationEncode name epoch generation logical).length <
      3 + name.bytes.length + 1 + 10 + 1 + 16 + 1 := by rw [encodeLength]; omega
  have logicalPart : (generationEncode name epoch generation logical).drop
      (3 + name.bytes.length + 1 + 10 + 1 + 16 + 1) = logical := by
    rw [show 3 + name.bytes.length + 1 + 10 + 1 + 16 + 1 = 3 + name.bytes.length + 1 + 28 by omega,
      ← List.drop_drop,fields,rest]
  have fits : generation.toNat < 16^16 := generation.toNat_lt
  have value := hexRoundTrip fits le_rfl
  simp [generationDecode,enough,fields,magic,named,after,logicalPart,first,second,digits,hex,value,
    epoch.digits]

theorem encodeGeneration {name epoch g g' logical}
    (same : generationEncode name epoch g logical = generationEncode name epoch g' logical) : g = g' := by
  have h := congrArg (generationDecode name) same
  rw [decodeEncode,decodeEncode] at h
  simpa using h

theorem nameNoColon (name : Name) : colon ∉ name.bytes := by
  intro member
  have legal := List.all_eq_true.mp name.legal colon member
  exact absurd legal (by decide)

theorem decodeNamed {name : Name} {key : Bytes} {d : Decoded} (decoded : generationDecode name key = some d) :
    key.take 3 = keyMagic ∧ (key.drop 3).take name.bytes.length = name.bytes ∧
    (key.drop 3)[name.bytes.length]? = some colon := by
  unfold generationDecode at decoded
  simp only at decoded
  split at decoded <;> try contradiction
  rename_i named
  simp only [not_or,not_not] at named
  obtain ⟨_,magic,name',after⟩ := named
  exact ⟨magic,name',by rw [List.getElem?_drop]; exact after⟩

theorem decodeShorter {name name' : Name} {key : Bytes} {d d' : Decoded}
    (decoded : generationDecode name key = some d) (decoded' : generationDecode name' key = some d') :
    name.bytes.length ≤ name'.bytes.length := by
  obtain ⟨_,text,_⟩ := decodeNamed decoded
  obtain ⟨_,_,ends⟩ := decodeNamed decoded'
  by_contra longer
  refine nameNoColon name ?_
  rw [← text]
  refine List.mem_of_getElem? (i := name'.bytes.length) ?_
  rw [List.getElem?_take_of_lt (by omega)]
  exact ends

theorem decodeForeign {name name' : Name} {key : Bytes} {d d' : Decoded}
    (decoded : generationDecode name key = some d) (decoded' : generationDecode name' key = some d') :
    name = name' := by
  have same := Nat.le_antisymm (decodeShorter decoded decoded') (decodeShorter decoded' decoded)
  obtain ⟨_,text,_⟩ := decodeNamed decoded
  obtain ⟨_,text',_⟩ := decodeNamed decoded'
  rw [same,text'] at text
  cases name
  cases name'
  simp only at text
  subst text
  rfl

theorem cutAt {s : Bytes} {i : Nat} {c : UInt8} (here : s[i]? = some c) : s.drop i = c :: s.drop (i + 1) := by
  rw [List.drop_eq_getElem?_toList_append,here]
  rfl

/- The encoding with any text in place of the sixteen digits. -/
def generationSpelled (name : Name) (epoch : Epoch) (hex logical : Bytes) : Bytes :=
  keyMagic ++ name.bytes ++ [colon] ++ epoch.bytes ++ [colon] ++ hex ++ [colon] ++ logical

theorem decodeSource {name : Name} {key : Bytes} {d : Decoded} (decoded : generationDecode name key = some d) :
    ∃ epoch hex, epoch.bytes = d.epoch ∧ lowered hex = hexDigits 16 d.generation.toNat ∧
      key = generationSpelled name epoch hex d.logical := by
  obtain ⟨magic,named,ends⟩ := decodeNamed decoded
  unfold generationDecode at decoded
  simp only at decoded
  split at decoded <;> try contradiction
  rename_i long
  split at decoded <;> try contradiction
  rename_i colons
  split at decoded <;> try contradiction
  rename_i digits
  split at decoded <;> try contradiction
  rename_i generation read
  simp only [not_or,not_not,not_lt] at long colons
  simp only [Bool.not_eq_true,Bool.not_eq_false'] at digits
  obtain ⟨enough,_⟩ := long
  obtain ⟨first,second⟩ := colons
  generalize fields : key.drop (3 + name.bytes.length + 1) = rest at first second digits read decoded
  have length : key.length = 3 + name.bytes.length + 1 + rest.length := by
    have h := congrArg List.length fields
    rw [List.length_drop] at h
    omega
  have hexLength : ((rest.drop 11).take 16).length = 16 := by
    rw [List.length_take,List.length_drop]
    omega
  obtain ⟨_,canonical⟩ := hexCanonical read (by omega)
  rw [hexLength] at canonical
  cases Option.some.inj decoded
  refine ⟨⟨rest.take 10,by rw [List.length_take]; omega,digits⟩,(rest.drop 11).take 16,rfl,canonical,?_⟩
  have tail : key.drop (3 + name.bytes.length + 1 + 10 + 1 + 16 + 1) = rest.drop 28 := by
    rw [← fields,List.drop_drop]
  have front : key = keyMagic ++ (name.bytes ++ (colon :: rest)) := by
    have after := cutAt ends
    rw [List.drop_drop,List.drop_drop,show 3 + (name.bytes.length + 1) = 3 + name.bytes.length + 1 by omega,
      fields] at after
    calc key = key.take 3 ++ key.drop 3 := (List.take_append_drop ..).symm
      _ = keyMagic ++ (name.bytes ++ (key.drop 3).drop name.bytes.length) := by
        rw [magic,← named,List.length_take,List.length_drop,Nat.min_eq_left (by omega),List.take_append_drop]
      _ = _ := by rw [List.drop_drop,after]
  have back : rest = rest.take 10 ++ (colon :: ((rest.drop 11).take 16 ++ (colon :: rest.drop 28))) := by
    have a := cutAt first
    have b := cutAt second
    calc rest = rest.take 10 ++ rest.drop 10 := (List.take_append_drop ..).symm
      _ = rest.take 10 ++ (colon :: ((rest.drop 11).take 16 ++ (rest.drop 11).drop 16)) := by
        rw [a,List.take_append_drop]
      _ = _ := by rw [List.drop_drop,b]
  rw [tail]
  simp only [generationSpelled]
  conv_lhs => rw [front,back]
  simp

theorem spelledEncode {name : Name} {epoch : Epoch} {hex logical : Bytes} {generation : UInt64}
    (digits : lowered hex = hexDigits 16 generation.toNat) :
    generationEncode name epoch generation logical = generationSpelled name epoch (lowered hex) logical := by
  rw [generationEncode,generationSpelled,digits]

theorem decodeOther {name name' : Name} (other : name' ≠ name) (epoch generation logical) :
    generationDecode name' (generationEncode name epoch generation logical) = none := by
  cases decoded : generationDecode name' (generationEncode name epoch generation logical) with
  | none => rfl
  | some d => exact absurd (decodeForeign decoded (decodeEncode ..)) other

theorem encodeInjective {name name' : Name} {epoch epoch' : Epoch} {generation generation' : UInt64}
    {logical logical' : Bytes} (same : generationEncode name epoch generation logical =
      generationEncode name' epoch' generation' logical') :
    name = name' ∧ epoch = epoch' ∧ generation = generation' ∧ logical = logical' := by
  have left := decodeEncode name epoch generation logical
  have right := decodeEncode name' epoch' generation' logical'
  rw [same] at left
  have named := decodeForeign left right
  subst named
  rw [right] at left
  cases epoch
  cases epoch'
  simp only [Option.some.injEq,Decoded.mk.injEq] at left
  obtain ⟨rfl,rfl,rfl⟩ := left
  exact ⟨rfl,rfl,rfl,rfl⟩

end CachePurge
