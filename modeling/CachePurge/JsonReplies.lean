import CachePurge.General.Json
import CachePurge.StatusReply
import CachePurge.XmlReply

/-! The replies that are JSON. Every error is, and so is every success of a location that
asks for it. A reader of JSON has from such a reply the members of the source and no
others, with the key as it was or as its Base64. -/
namespace CachePurge
open General
open General.Json (commas member)

/- What the core documents of ngx_escape_json: a byte is written by itself, as JSON spells it. -/
structure JsonEscapes (escape : Option Bytes → Bytes → Escaped) (esc : UInt8 → Bytes) : Prop where
  written : ∀ dst src, escape (some dst) src = .last (dst ++ src.flatMap esc)
  spells : ∀ c rest, Json.readChar (esc c ++ rest) = some ([c],rest)
  ascii : ∀ c, c.toNat < 0x80 → Plain (esc c)
  high : ∀ c, 0x80 ≤ c.toNat → esc c = [c]

section values

def jsonText (s : Bytes) : Bytes := 34 :: s ++ [34]

abbrev JsonPart := Bytes × Json × Bytes

def plainPart (name s : Bytes) : JsonPart := (name,.string s,jsonText s)

def numberPart (name digits : Bytes) : JsonPart := (name,.number digits,digits)

def flagPart (name : Bytes) (b : Bool) : JsonPart := (name,.bool b,trueOrFalse b)

def objectText (parts : List JsonPart) : Bytes := 123 :: commas (parts.map fun p => member p.1 p.2.2) ++ [125]

def objectOf (parts : List JsonPart) : Json := .object (parts.map fun p => (p.1,p.2.1))

structure JsonPart.Sound (p : JsonPart) : Prop where
  name : Json.Plain p.1
  value : Json.Reads p.2.1 p.2.2

theorem plainSound {name s : Bytes} (name_ : Json.Plain name) (plain : Json.Plain s) : (plainPart name s).Sound :=
  ⟨name_,Json.readsString (Json.plainString plain)⟩

theorem flagSound {name : Bytes} (name_ : Json.Plain name) (b : Bool) : (flagPart name b).Sound := by
  refine ⟨name_,?_⟩
  have reads := Json.readsBool b
  cases b <;> exact reads

theorem numberSound {name digits : Bytes} (name_ : Json.Plain name) (numeral : Json.Numeral digits) :
    (numberPart name digits).Sound := ⟨name_,Json.readsNumber numeral⟩

theorem readsParts {parts : List JsonPart} (sound : ∀ p ∈ parts, p.Sound) : Json.Reads (objectOf parts) (objectText parts) :=
  Json.readsObject (fun p member => (sound p member).name) fun p member => (sound p member).value

theorem digitByte {d : Nat} (small : d < 10) : Json.digit (48 + d.toUInt8) = true := by
  interval_cases d <;> rfl

def nestedPart (name : Bytes) (parts : List JsonPart) : JsonPart := (name,objectOf parts,objectText parts)

def listPart (name : Bytes) (rows : List (List JsonPart)) : JsonPart :=
  (name,.array (rows.map objectOf),91 :: commas (rows.map objectText) ++ [93])

theorem nestedSound {name : Bytes} (name_ : Json.Plain name) {parts : List JsonPart} (sound : ∀ p ∈ parts, p.Sound) :
    (nestedPart name parts).Sound := ⟨name_,readsParts sound⟩

theorem listSound {name : Bytes} (name_ : Json.Plain name) {rows : List (List JsonPart)}
    (sound : ∀ parts ∈ rows, ∀ p ∈ parts, p.Sound) : (listPart name rows).Sound := by
  have each := @Json.readsArray (rows.map fun parts => (objectOf parts,objectText parts)) fun p member => by
    obtain ⟨parts,inside,rfl⟩ := List.mem_map.mp member
    exact readsParts (sound parts inside)
  rw [List.map_map,List.map_map] at each
  exact ⟨name_,each⟩

theorem decimalNumeral (n : Nat) : Json.Numeral (decimal n) := by
  have digits : ∀ d ∈ (Nat.digits 10 n).reverse.map (fun d => 48 + d.toUInt8), Json.digit d = true := by
    intro d member
    obtain ⟨e,inside,rfl⟩ := List.mem_map.mp member
    exact digitByte (Nat.digits_lt_base (by decide) (List.mem_reverse.mp inside))
  have whole : decimal n = [48] ∨ ∃ c more, decimal n = c :: more ∧ c ≠ 48 ∧ ∀ d ∈ decimal n, Json.digit d = true := by
    rcases Nat.eq_zero_or_pos n with rfl | positive
    · exact .inl rfl
    · have some_ : n ≠ 0 := Nat.pos_iff_ne_zero.mp positive
      have nonempty : Nat.digits 10 n ≠ [] := Nat.digits_ne_nil_iff_ne_zero.mpr some_
      have last := Nat.getLast_digit_ne_zero 10 some_
      obtain ⟨front,final,split⟩ := List.eq_nil_or_concat (Nat.digits 10 n) |>.resolve_left nonempty
      have final_ : final ≠ 0 := by simpa [split] using last
      have bound : final < 10 := Nat.digits_lt_base (by decide : 1 < 10) (by rw [split]; simp : final ∈ Nat.digits 10 n)
      refine .inr ⟨48 + final.toUInt8,front.reverse.map (fun d => 48 + d.toUInt8),?_,?_,?_⟩
      · rw [decimal,if_neg some_,split]
        simp
      · interval_cases final <;> simp_all
      · rwa [decimal,if_neg some_]
  have numeral := Json.Numeral.mk (.inl rfl) whole (.inl rfl)
  rwa [List.nil_append,List.append_nil] at numeral

end values

section success
variable {core : ReplyCore} {esc : UInt8 → Bytes}

def counterParts (result : Result) : List JsonPart :=
  if result.counted then [numberPart (text "deleted") (decimal result.deleted),
    numberPart (text "delete_errors") (decimal result.deleteErrors),
    numberPart (text "scan_errors") (decimal result.scanErrors)]
  else []

def successParts (esc : UInt8 → Bytes) (result : Result) (key encoding : Bytes) : List JsonPart :=
  let pending := result.code = .accepted || result.code = .invalidated
  [(text "key",.string key,jsonText (key.flatMap esc)),plainPart (text "key_encoding") encoding,
    plainPart (text "code") (response result.code).code,
    flagPart (text "complete") ((response result.code).status = 200),flagPart (text "cleanup_pending") pending] ++
      counterParts result

def problemParts (result : Result) : List JsonPart :=
  let desc := response result.code
  [plainPart (text "type") (text "about:blank"),plainPart (text "title") desc.title,
    numberPart (text "status") (decimal desc.status),plainPart (text "detail") desc.detail,
    plainPart (text "code") desc.code] ++ counterParts result

theorem problemText (result : Result) :
    jsonEnd result .json (problem (response result.code)) = objectText (problemParts result) := by
  unfold jsonEnd problem counters objectText problemParts counterParts
  generalize response result.code = desc
  cases result.counted <;>
    simp only [Bool.false_eq_true,if_true,if_false,plainPart,numberPart,jsonText,List.append_nil,List.cons_append,
      List.nil_append,List.map_cons,List.map_nil,commas,member]
  all_goals
    repeat rw [textOf]
    simp only [List.append_assoc,List.cons_append,List.nil_append,List.map_cons,List.map_nil]
    rfl

theorem escapedKey (escapes : JsonEscapes core.escapeJson esc) (front key : Bytes) :
    (escapeKey core (some front) key .json).written = front ++ key.flatMap esc := by
  unfold escapeKey
  split
  · rename_i empty
    rw [List.length_eq_zero_iff.mp empty,List.flatMap_nil,List.append_nil]
    rfl
  · exact congrArg Escaped.written (escapes.written front key)

theorem successText (escapes : JsonEscapes core.escapeJson esc) (result : Result) (key encoding : Bytes) :
    jsonEnd result .json (successBody core result key encoding .json) =
      objectText (successParts esc result key encoding) := by
  unfold jsonEnd successBody counters objectText successParts counterParts
  rw [escapedKey escapes]
  unfold bodyOpening bodyClosing
  generalize response result.code = desc
  cases result.counted <;>
    simp only [Bool.false_eq_true,if_true,if_false,plainPart,numberPart,flagPart,jsonText,List.append_nil,List.cons_append,
      List.nil_append,List.map_cons,List.map_nil,commas,member]
  all_goals
    repeat rw [textOf]
    simp only [List.append_assoc,List.cons_append,List.nil_append,List.map_cons,List.map_nil]
    rfl

end success

section sent
variable {core : ReplyCore} {result : Result} {bits : Nat} {conf : ReplyConf} {memory : ReplyMemory} {keys : List Str}
  {status capacity : Nat} {contentType body : Bytes}

def replyAbout (result : Result) (keys : List Str) : Str :=
  if 400 ≤ (response result.code).status then .null else keys.head?.getD .null

theorem sentFull (sent : sendResult core bits conf memory keys result = .full status contentType capacity body) :
    ∃ key encoding, replyKey core memory (replyAbout result keys) = some (key,encoding) ∧
      (replyAbout result keys).len ≤ (2^bits - 1 - 2048) / 8 ∧ status = (response result.code).status ∧
      capacity = (2048 + key.length * 6) % 2^bits ∧ conf.type ≠ .none ∧
      body = if 400 ≤ (response result.code).status then jsonEnd result .json (problem (response result.code))
        else jsonEnd result conf.type (successBody core result key encoding conf.type) := by
  unfold sendResult at sent
  split at sent
  · contradiction
  split at sent
  · contradiction
  rename_i shown
  unfold replyAbout
  by_cases failing : 400 ≤ (response result.code).status
  · simp only [failing,if_true] at sent ⊢
    split at sent
    · contradiction
    rename_i short
    split at sent
    · contradiction
    rename_i key encoding found
    split at sent
    · contradiction
    cases sent
    exact ⟨key,encoding,found,by omega,rfl,rfl,shown,rfl⟩
  · simp only [failing,if_false] at sent ⊢
    split at sent
    · contradiction
    rename_i short
    split at sent
    · contradiction
    rename_i key encoding found
    split at sent
    · contradiction
    cases sent
    exact ⟨key,encoding,found,by omega,rfl,rfl,shown,rfl⟩

end sent

section texts

def asciiByte (c : UInt8) : Bool := 32 ≤ c && c < 127

def wordByte (c : UInt8) : Bool := 32 ≤ c && c < 127 && c != 34 && c != 92

def Response.texts (desc : Response) : Bytes := desc.code ++ desc.title ++ desc.detail

theorem catalogTexts (code : ResultCode) :
    (response code).texts.all wordByte = true ∧ (response code).texts.length ≤ 200 := by
  cases code <;> rw [Response.texts,response,textOf,textOf,textOf] <;> exact ⟨rfl,by decide⟩

theorem wordsPlain {s : Bytes} (words : s.all wordByte = true) : Json.Plain s := by
  intro c member special
  have word := List.all_eq_true.mp words c member
  simp only [wordByte,Bool.and_eq_true,decide_eq_true_eq,bne_iff_ne] at word
  rcases special with control | quote | slash
  · exact UInt8.not_lt.mpr word.1.1.1 control
  · exact word.1.2 quote
  · exact word.2 slash

theorem literalPlain (chars : List Char) (words : (chars.map fun c => c.toNat.toUInt8).all wordByte = true) :
    Json.Plain (text (String.ofList chars)) := by
  rw [textOf]
  exact wordsPlain words

end texts

section fits
variable {core : ReplyCore} {result : Result}

/- What the core documents of the escapes and of ngx_base64_encoded_length. -/
structure ReplyCore.Sized (core : ReplyCore) : Prop where
  json : ∀ dst src, ∃ written, core.escapeJson (some dst) src = .last (dst ++ written) ∧ written.length ≤ src.length * 6
  html : ∀ dst src, ∃ written, core.escapeHtml (some dst) src = .last (dst ++ written) ∧ written.length ≤ src.length * 6
  base64 : ∀ raw, (core.encodeBase64 raw).length = (raw.length + 2) / 3 * 4

structure Result.Wide (result : Result) : Prop where
  deleted : result.deleted < 2^64
  deleteErrors : result.deleteErrors < 2^64
  scanErrors : result.scanErrors < 2^64

theorem decimalWide {n : Nat} (wide : n < 2^64) : (decimal n).length ≤ 20 :=
  decimalShort (by decide) (Nat.lt_trans wide (by decide))

theorem countersShort (wide : result.Wide) : (counters result).length ≤ 110 := by
  have deleted := decimalWide wide.deleted
  have deleteErrors := decimalWide wide.deleteErrors
  have scanErrors := decimalWide wide.scanErrors
  unfold counters
  split
  · simp only [List.length_append,text,List.length_map]
    simp only [String.reduceToList,List.length_cons,List.length_nil]
    omega
  · simp

theorem jsonEndShort (wide : result.Wide) (type : ResponseType) (body : Bytes) :
    (jsonEnd result type body).length ≤ body.length + 111 := by
  have short := countersShort wide
  unfold jsonEnd
  split
  · have mark : (text "\x7d").length = 1 := by decide
    simp only [List.length_append,mark]
    omega
  · omega

theorem problemShort (code : ResultCode) : (problem (response code)).length ≤ 300 := by
  have short := (catalogTexts code).2
  have status : (decimal (response code).status).length ≤ 20 := decimalWide (by cases code <;> decide)
  rw [Response.texts,List.length_append,List.length_append] at short
  rw [problem,textOf,textOf,textOf,textOf,textOf]
  simp only [List.length_append,List.length_map,List.length_cons,List.length_nil]
  omega

theorem escapedShort (sized : core.Sized) (front key : Bytes) {type : ResponseType} (other : type ≠ .xml) (shown : type ≠ .none) :
    (escapeKey core (some front) key type).written.length ≤ front.length + key.length * 6 := by
  unfold escapeKey
  split
  · exact Nat.le_add_right _ _
  · cases type with
    | xml | none => contradiction
    | json =>
      obtain ⟨written,same,short⟩ := sized.json front key
      simp only [same,Escaped.written,List.length_append]
      omega
    | html =>
      obtain ⟨written,same,short⟩ := sized.html front key
      simp only [same,Escaped.written,List.length_append]
      omega
    | text =>
      simp only [Escaped.written,List.length_append]
      omega

theorem openingShort (type : ResponseType) : (bodyOpening type).length ≤ 100 := by
  cases type <;> simp only [bodyOpening] <;> rw [textOf] <;> simp

theorem bodyClosingShort (code encoding : Bytes) (complete pending : Bool) (type : ResponseType) :
    (bodyClosing code encoding complete pending type).length ≤ 100 + code.length + encoding.length := by
  have first := flagShort complete
  have second := flagShort pending
  cases type <;> simp only [bodyClosing,List.length_append,text,List.length_map] <;>
    simp only [String.reduceToList,List.length_cons,List.length_nil] <;> omega

theorem successShort (sized : core.Sized) (key : Bytes) {encoding : Bytes} (short : encoding.length ≤ 6) {type : ResponseType}
    (other : type ≠ .xml) (shown : type ≠ .none) :
    (successBody core result key encoding type).length ≤ 300 + key.length * 6 := by
  have code := codeShort result.code
  have opening := openingShort type
  have escaped := escapedShort sized (bodyOpening type) key other shown
  have closing := bodyClosingShort (response result.code).code encoding ((response result.code).status = 200)
    (result.code = .accepted || result.code = .invalidated) type
  unfold successBody
  dsimp only
  rw [List.length_append]
  omega

theorem bodyFits (sized : core.Sized) (wide : result.Wide) (key : Bytes) {encoding : Bytes} (short : encoding.length ≤ 6)
    {type : ResponseType} (shown : type ≠ .none) :
    (jsonEnd result type (successBody core result key encoding type)).length ≤ 2048 + key.length * 6 := by
  by_cases xml : type = .xml
  · subst xml
    exact xmlFits core result key short
  · have body := @successShort core result sized key encoding short type xml shown
    have closed := jsonEndShort wide type (successBody core result key encoding type)
    omega

theorem replyKeyShort (sized : core.Sized) {memory : ReplyMemory} {key : Str} {s encoding : Bytes}
    (found : replyKey core memory key = some (s,encoding)) :
    s.length ≤ max key.len ((key.len + 2) / 3 * 4) ∧ encoding.length ≤ 6 := by
  unfold replyKey at found
  split at found
  · cases found
    exact ⟨Nat.zero_le _,by decide⟩
  · split at found
    · cases found
      exact ⟨by rw [strLength]; exact Nat.le_max_left _ _,by decide⟩
    · split at found
      · cases found
        refine ⟨?_,by decide⟩
        rw [sized.base64,strLength]
        exact Nat.le_max_right _ _
      · contradiction
    · contradiction

end fits

/- The size of the buffer is not cut off by size_t, and the whole reply fits in it, whatever
the key, the type and the result. -/
theorem repliesFit {core : ReplyCore} (sized : core.Sized) {bits : Nat} (width : bits = 32 ∨ bits = 64) {conf : ReplyConf}
    {memory : ReplyMemory} {keys : List Str} {result : Result} (wide : result.Wide) {status capacity : Nat}
    {contentType body : Bytes}
    (sent : sendResult core bits conf memory keys result = .full status contentType capacity body) :
    ∃ key encoding, replyKey core memory (replyAbout result keys) = some (key,encoding) ∧
      capacity = 2048 + key.length * 6 ∧ body.length ≤ capacity := by
  obtain ⟨key,encoding,found,fits,_,room,shown,rfl⟩ := sentFull sent
  obtain ⟨short,named⟩ := replyKeyShort sized found
  refine ⟨key,encoding,found,?_⟩
  -- The largest length that the guard lets through is a multiple of three in both widths.
  have whole : capacity = 2048 + key.length * 6 := by
    rw [room,Nat.mod_eq_of_lt]
    rcases width with rfl | rfl
    · norm_num at fits ⊢
      omega
    · norm_num at fits ⊢
      omega
  refine ⟨whole,?_⟩
  rw [whole]
  split
  · have error := problemShort result.code
    have closed := jsonEndShort wide .json (problem (response result.code))
    omega
  · exact bodyFits sized wide key named shown

section read
variable {core : ReplyCore} {esc : UInt8 → Bytes}

def counterMembers (result : Result) : List (Bytes × Json) :=
  if result.counted then [(text "deleted",.number (decimal result.deleted)),
    (text "delete_errors",.number (decimal result.deleteErrors)),(text "scan_errors",.number (decimal result.scanErrors))]
  else []

def problemMembers (result : Result) : List (Bytes × Json) :=
  let desc := response result.code
  [(text "type",.string (text "about:blank")),(text "title",.string desc.title),(text "status",.number (decimal desc.status)),
    (text "detail",.string desc.detail),(text "code",.string desc.code)] ++ counterMembers result

def successMembers (result : Result) (key encoding : Bytes) : List (Bytes × Json) :=
  [(text "key",.string key),(text "key_encoding",.string encoding),(text "code",.string (response result.code).code),
    (text "complete",.bool ((response result.code).status = 200)),
    (text "cleanup_pending",.bool (result.code = .accepted || result.code = .invalidated))] ++ counterMembers result

theorem problemValue (result : Result) : objectOf (problemParts result) = .object (problemMembers result) := by
  unfold objectOf problemParts problemMembers counterParts counterMembers
  cases result.counted <;> rfl

theorem successValue (esc : UInt8 → Bytes) (result : Result) (key encoding : Bytes) :
    objectOf (successParts esc result key encoding) = .object (successMembers result key encoding) := by
  unfold objectOf successParts successMembers counterParts counterMembers
  cases result.counted <;> rfl

theorem catalogPlain (code : ResultCode) : Json.Plain (response code).code ∧ Json.Plain (response code).title ∧
    Json.Plain (response code).detail := by
  have words := (catalogTexts code).1
  simp only [Response.texts,List.all_append,Bool.and_eq_true] at words
  exact ⟨wordsPlain words.1.1,wordsPlain words.1.2,wordsPlain words.2⟩

theorem countersSound (result : Result) : ∀ p ∈ counterParts result, p.Sound := by
  unfold counterParts
  split
  · simp only [List.forall_mem_cons]
    refine ⟨numberSound ?_ (decimalNumeral _),numberSound ?_ (decimalNumeral _),numberSound ?_ (decimalNumeral _),by simp⟩ <;>
      exact literalPlain _ rfl
  · simp

theorem problemSound (result : Result) : ∀ p ∈ problemParts result, p.Sound := by
  obtain ⟨code,title,detail⟩ := catalogPlain result.code
  refine List.forall_mem_append.mpr ⟨?_,countersSound result⟩
  simp only [List.forall_mem_cons]
  refine ⟨plainSound ?_ (literalPlain _ rfl),plainSound ?_ title,numberSound ?_ (decimalNumeral _),plainSound ?_ detail,
    plainSound ?_ code,by simp⟩ <;> exact literalPlain _ rfl

theorem escapesOpen (escapes : JsonEscapes core.escapeJson esc) (c : UInt8) : ∃ d v, esc c = d :: v ∧ d ≠ 34 := by
  cases spelled : esc c with
  | nil =>
    have none_ := escapes.spells c []
    rw [spelled] at none_
    contradiction
  | cons d v =>
    refine ⟨d,v,rfl,?_⟩
    rintro rfl
    have none_ := escapes.spells c []
    rw [spelled] at none_
    contradiction

theorem successSound (escapes : JsonEscapes core.escapeJson esc) (result : Result) (key : Bytes) {encoding : Bytes}
    (plain : Json.Plain encoding) : ∀ p ∈ successParts esc result key encoding, p.Sound := by
  refine List.forall_mem_append.mpr ⟨?_,countersSound result⟩
  simp only [List.forall_mem_cons]
  refine ⟨⟨?_,Json.readsString (Json.spelledString (escapesOpen escapes) escapes.spells key)⟩,plainSound ?_ plain,
    plainSound ?_ (catalogPlain result.code).1,flagSound ?_ _,flagSound ?_ _,by simp⟩ <;> exact literalPlain _ rfl

theorem problemReads (result : Result) :
    Json.read (jsonEnd result .json (problem (response result.code))) = some (.object (problemMembers result)) := by
  rw [problemText,← problemValue]
  exact Json.readsWhole (readsParts (problemSound result))

theorem successReads (escapes : JsonEscapes core.escapeJson esc) (result : Result) (key : Bytes) {encoding : Bytes}
    (plain : Json.Plain encoding) : Json.read (jsonEnd result .json (successBody core result key encoding .json)) =
      some (.object (successMembers result key encoding)) := by
  rw [successText escapes,← successValue esc]
  exact Json.readsWhole (readsParts (successSound escapes result key plain))

end read

section utf8
variable {core : ReplyCore} {esc : UInt8 → Bytes}

theorem escapedSentence (escapes : JsonEscapes core.escapeJson esc) {key : Bytes} (sentence : Sentence xmlWords key) :
    Sentence xmlWords (key.flatMap esc) := by
  obtain ⟨words,inside,rfl⟩ := sentence
  induction words with
  | nil => exact sentenceNil
  | cons w words ih =>
    rw [List.flatten_cons,List.flatMap_append]
    refine sentenceAppend ?_ (ih fun v member => inside v (List.mem_cons_of_mem w member))
    have word := inside w List.mem_cons_self
    obtain ⟨⟨v,spelled_,_⟩,_⟩ := xmlWordsTail.mp word
    by_cases ascii : ∃ c, w = [c] ∧ c.toNat < 0x80
    · obtain ⟨c,rfl,small⟩ := ascii
      rw [List.flatMap_cons,List.flatMap_nil,List.append_nil]
      exact plainText (escapes.ascii c small)
    · -- A longer character has no byte that is escaped.
      have all : ∀ c ∈ w, esc c = [c] := by
        intro c member
        refine escapes.high c ?_
        cases spelledSpelling.mp spelled_ with
        | one small => exact absurd ⟨_,rfl,small⟩ ascii
        | two _ high =>
          simp only [List.mem_cons,List.not_mem_nil,or_false] at member
          rcases member with rfl | rfl <;> omega
        | three _ high =>
          simp only [List.mem_cons,List.not_mem_nil,or_false] at member
          rcases member with rfl | rfl | rfl <;> omega
        | four _ high =>
          simp only [List.mem_cons,List.not_mem_nil,or_false] at member
          rcases member with rfl | rfl | rfl | rfl <;> omega
      have same : w.flatMap esc = w := by
        rw [List.flatMap_congr all]
        simp
      rw [same]
      exact sentenceWord word

theorem plainAppend {s t : Bytes} (left : Plain s) (right : Plain t) : Plain (s ++ t) := by
  intro c member
  rcases List.mem_append.mp member with front | back
  · exact left c front
  · exact right c back

theorem decimalPlain (n : Nat) : Plain (decimal n) := by
  have digit (d : Nat) (small : d < 10) : (48 + d.toUInt8).toNat < 0x80 ∧ XmlChar (48 + d.toUInt8).toNat := by
    interval_cases d <;> decide
  intro c member
  unfold decimal at member
  split at member
  · rw [List.mem_singleton.mp member]
    decide
  · obtain ⟨d,inside,rfl⟩ := List.mem_map.mp member
    exact digit d (Nat.digits_lt_base (by decide) (List.mem_reverse.mp inside))

theorem asciiPlain {s : Bytes} (ascii : s.all asciiByte = true) : Plain s := by
  intro c member
  have here := List.all_eq_true.mp ascii c member
  simp only [asciiByte,Bool.and_eq_true,decide_eq_true_eq] at here
  have low := UInt8.le_iff_toNat_le.mp here.1
  have high := UInt8.lt_iff_toNat_lt.mp here.2
  exact ⟨Nat.lt_trans high (by decide),.inr (.inr (.inr (.inl ⟨low,Nat.le_trans (Nat.le_of_lt high) (by decide)⟩)))⟩

theorem literalAscii (chars : List Char) (ascii : (chars.map fun c => c.toNat.toUInt8).all asciiByte = true) :
    Plain (text (String.ofList chars)) := by
  rw [textOf]
  exact asciiPlain ascii

theorem wordsAscii {s : Bytes} (words : s.all wordByte = true) : Plain s := by
  refine asciiPlain (List.all_eq_true.mpr fun c member => ?_)
  have word := List.all_eq_true.mp words c member
  simp only [wordByte,Bool.and_eq_true] at word
  exact Bool.and_eq_true_iff.mpr word.1.1

theorem flagPlain (b : Bool) : Plain (trueOrFalse b) := by
  cases b <;> exact literalAscii _ rfl

theorem countersPlain (result : Result) : Plain (counters result) := by
  unfold counters
  split
  · refine plainAppend (plainAppend (plainAppend (plainAppend (plainAppend ?_ (decimalPlain _)) ?_) (decimalPlain _)) ?_)
      (decimalPlain _) <;> exact literalAscii _ rfl
  · exact fun c member => absurd member List.not_mem_nil

theorem problemPlain (code : ResultCode) : Plain (problem (response code)) := by
  have words := (catalogTexts code).1
  simp only [Response.texts,List.all_append,Bool.and_eq_true] at words
  refine plainAppend (plainAppend (plainAppend (plainAppend (plainAppend (plainAppend (plainAppend (plainAppend ?_
    (wordsAscii words.1.2)) ?_) (decimalPlain _)) ?_) (wordsAscii words.2)) ?_) (wordsAscii words.1.1)) ?_ <;>
    exact literalAscii _ rfl

theorem problemDocument (result : Result) : XmlText (jsonEnd result .json (problem (response result.code))) := by
  rw [xmlTextSentence,jsonEnd,if_pos rfl]
  exact plainText (plainAppend (plainAppend (problemPlain _) (countersPlain result)) (literalAscii _ rfl))

theorem successDocument (escapes : JsonEscapes core.escapeJson esc) (result : Result) {key encoding : Bytes}
    (sentence : Sentence xmlWords key) (plain : Plain encoding) :
    XmlText (jsonEnd result .json (successBody core result key encoding .json)) := by
  have words := (catalogTexts result.code).1
  simp only [Response.texts,List.all_append,Bool.and_eq_true] at words
  have code := wordsAscii words.1.1
  have closing : Plain (bodyClosing (response result.code).code encoding ((response result.code).status = 200)
      (result.code = .accepted || result.code = .invalidated) .json) := by
    refine plainAppend (plainAppend (plainAppend (plainAppend (plainAppend (plainAppend (plainAppend ?_ plain) ?_) code) ?_)
      (flagPlain _)) ?_) (flagPlain _) <;> exact literalAscii _ rfl
  have opening : Plain (bodyOpening .json) := literalAscii _ rfl
  have ending : Plain (text "\x7d") := literalAscii _ rfl
  rw [xmlTextSentence,jsonEnd,if_pos rfl]
  refine sentenceAppend (sentenceAppend ?_ (plainText (countersPlain result))) (plainText ending)
  unfold successBody
  dsimp only
  rw [escapedKey escapes]
  exact sentenceAppend (sentenceAppend (plainText opening) (escapedSentence escapes sentence)) (plainText closing)

end utf8

/- A JSON reply reads as an object of exactly the members of its kind, with the key itself or
with its Base64 as it says, and is text in UTF-8 unless the key is ill spelled. -/
theorem jsonReplies {core : ReplyCore} (decodes : Utf8Decodes core.utf8Decode) (base64 : Base64Encodes core.encodeBase64)
    {esc : UInt8 → Bytes} (escapes : JsonEscapes core.escapeJson esc) {bits : Nat} {conf : ReplyConf} {memory : ReplyMemory}
    {keys : List Str} {result : Result} {status capacity : Nat} {contentType body : Bytes}
    (sent : sendResult core bits conf memory keys result = .full status contentType capacity body) :
    let key := (keys.head?.getD .null).bytes
    (400 ≤ status → Json.read body = some (.object (problemMembers result)) ∧ XmlText body) ∧
    (status < 400 → conf.type = .json → ∃ s encoding,
      Json.read body = some (.object (successMembers result s encoding)) ∧
      ((Sentence readWords key ∧ encoding = text "utf-8" ∧ s = key) ∨
        (¬ Sentence readWords key ∧ encoding = text "base64" ∧ s = core.encodeBase64 key)) ∧
      ((Sentence readWords key → ¬ IllSpelled key) → XmlText body)) := by
  intro key
  obtain ⟨s,encoding,found,_,rfl,_,_,rfl⟩ := sentFull sent
  constructor
  · intro failing
    rw [if_pos failing]
    exact ⟨problemReads result,problemDocument result⟩
  · intro fine json
    have success : ¬ 400 ≤ (response result.code).status := by omega
    rw [replyAbout,if_neg success] at found
    rw [if_neg success,json]
    rcases replyKeyEncoded decodes found with ⟨accepted,rfl,rfl⟩ | ⟨refused,rfl,rfl⟩
    · refine ⟨_,_,successReads escapes result _ (literalPlain _ rfl),.inl ⟨accepted,rfl,rfl⟩,fun spelled => ?_⟩
      have document := (xmlTextSentence key).mp ((sentenceXml key).mpr ⟨accepted,spelled accepted⟩)
      exact successDocument escapes result document (literalAscii _ rfl)
    · refine ⟨_,_,successReads escapes result _ (literalPlain _ rfl),.inr ⟨refused,rfl,rfl⟩,fun _ => ?_⟩
      have plain : Plain (core.encodeBase64 key) := fun c member =>
        ⟨(base64Plain (base64.alphabet key c member)).1,(base64Plain (base64.alphabet key c member)).2.1⟩
      exact successDocument escapes result (plainText plain) (literalAscii _ rfl)

def jsonByte (c : UInt8) : Bytes :=
  if c = 34 ∨ c = 92 then [92,c]
  else if 32 ≤ c then [c]
  else if c = 10 then [92,110]
  else if c = 13 then [92,114]
  else if c = 9 then [92,116]
  else if c = 8 then [92,98]
  else if c = 12 then [92,102]
  else [92,117,48,48,48 + c / 16,if c % 16 < 10 then 48 + c % 16 else 87 + c % 16]

def htmlByte (c : UInt8) : Bytes :=
  if c = 60 then text "&lt;"
  else if c = 62 then text "&gt;"
  else if c = 38 then text "&amp;"
  else if c = 34 then text "&quot;"
  else [c]

def escapingCore : ReplyCore where
  utf8Decode := coreDecode
  encodeBase64 := encodeBase64
  escapeJson dst src := dst.elim (.count (src.flatMap jsonByte).length) fun written => .last (written ++ src.flatMap jsonByte)
  escapeHtml dst src := dst.elim (.count (src.flatMap htmlByte).length) fun written => .last (written ++ src.flatMap htmlByte)

theorem jsonByteControl (n : Fin 32) (rest : Bytes) :
    Json.readChar (jsonByte (UInt8.ofNat n) ++ rest) = some ([UInt8.ofNat n],rest) := by
  have all : ∀ n : Fin 32, Json.readChar (jsonByte (UInt8.ofNat n)) = some ([UInt8.ofNat n],[]) := by decide +kernel
  exact Json.readCharMore (all n) rest

theorem jsonBytePlain {c : UInt8} (other : ¬ (c = 34 ∨ c = 92)) (large : 32 ≤ c) : jsonByte c = [c] := by
  rw [jsonByte,if_neg other,if_pos large]

theorem jsonByteReads (c : UInt8) (rest : Bytes) : Json.readChar (jsonByte c ++ rest) = some ([c],rest) := by
  by_cases marked : c = 34 ∨ c = 92
  · rcases marked with rfl | rfl <;> rfl
  by_cases large : 32 ≤ c
  · rw [jsonBytePlain marked large]
    refine Json.readPlain ?_ rest
    rintro (small | marks)
    · exact UInt8.not_lt.mpr large small
    · exact marked marks
  · have small : c.toNat < 32 := UInt8.lt_iff_toNat_lt.mp (UInt8.not_le.mp large)
    have control := jsonByteControl ⟨c.toNat,small⟩ rest
    rwa [UInt8.ofNat_toNat] at control

theorem eachByte {P : UInt8 → Prop} (all : ∀ n : Fin 256, P (UInt8.ofNat n)) (c : UInt8) : P c := by
  have here := all ⟨c.toNat,c.toNat_lt⟩
  rwa [UInt8.ofNat_toNat] at here

theorem escapingJson : JsonEscapes escapingCore.escapeJson jsonByte := by
  refine ⟨fun _ _ => rfl,jsonByteReads,?_,?_⟩
  · exact eachByte (by decide +kernel)
  · intro c high
    have large : 32 ≤ c := UInt8.le_iff_toNat_le.mpr (Nat.le_trans (by decide) high)
    refine jsonBytePlain ?_ large
    rintro (rfl | rfl) <;> exact absurd high (by decide)

theorem base64Length (raw : Bytes) : (encodeBase64 raw).length = (raw.length + 2) / 3 * 4 := by
  induction raw using encodeBase64.induct with
  | case1 a b c raw ih =>
    simp only [encodeBase64,List.length_append,List.length_cons,List.length_nil,ih]
    omega
  | case2 a b => simp [encodeBase64]
  | case3 a => simp [encodeBase64]
  | case4 => rfl

theorem flatMapShort {esc : UInt8 → Bytes} (short : ∀ c, (esc c).length ≤ 6) (s : Bytes) :
    (s.flatMap esc).length ≤ s.length * 6 := by
  induction s with
  | nil => exact Nat.le_refl 0
  | cons c s ih =>
    have first := short c
    rw [List.flatMap_cons,List.length_append,List.length_cons]
    omega

theorem jsonByteShort (c : UInt8) : (jsonByte c).length ≤ 6 := by
  unfold jsonByte
  repeat' split
  all_goals simp

theorem htmlByteShort (c : UInt8) : (htmlByte c).length ≤ 6 := by
  unfold htmlByte
  rw [textOf,textOf,textOf,textOf]
  repeat' split
  all_goals simp

theorem escapingSized : escapingCore.Sized where
  json _ src := ⟨_,rfl,flatMapShort jsonByteShort src⟩
  html _ src := ⟨_,rfl,flatMapShort htmlByteShort src⟩
  base64 := base64Length

def jsonReplyTo (key : Bytes) : Reply :=
  sendResult escapingCore 64 ⟨.json,false,false⟩ ⟨true,true,true⟩ [strOf key] purgedOne

def purgedJson (key encoding : Bytes) : Bytes :=
  jsonEnd purgedOne .json (successBody escapingCore purgedOne key encoding .json)

theorem jsonReplyQuoted : jsonReplyTo (text "a\"\n") =
    .full 200 (text "application/json") 2066 (purgedJson (text "a\"\n") (text "utf-8")) := by decide +kernel

theorem repliesFitQuoted : ∃ key encoding,
    replyKey escapingCore ⟨true,true,true⟩ (replyAbout purgedOne [strOf (text "a\"\n")]) = some (key,encoding) ∧
      2066 = 2048 + key.length * 6 ∧ (purgedJson (text "a\"\n") (text "utf-8")).length ≤ 2066 :=
  repliesFit escapingSized (.inr rfl) ⟨by decide,by decide,by decide⟩ jsonReplyQuoted

theorem jsonRepliesBinary :
    (400 ≤ 200 → Json.read (purgedJson (text "/w==") (text "base64")) = some (.object (problemMembers purgedOne)) ∧
      XmlText (purgedJson (text "/w==") (text "base64"))) ∧
    (200 < 400 → ReplyConf.type ⟨.json,false,false⟩ = .json → ∃ s encoding,
      Json.read (purgedJson (text "/w==") (text "base64")) = some (.object (successMembers purgedOne s encoding)) ∧
      ((Sentence readWords (strOf [255]).bytes ∧ encoding = text "utf-8" ∧ s = (strOf [255]).bytes) ∨
        (¬ Sentence readWords (strOf [255]).bytes ∧ encoding = text "base64" ∧ s = encodeBase64 (strOf [255]).bytes)) ∧
      ((Sentence readWords (strOf [255]).bytes → ¬ IllSpelled (strOf [255]).bytes) →
        XmlText (purgedJson (text "/w==") (text "base64")))) := by
  have sent : jsonReplyTo [255] = .full 200 (text "application/json") 2072 (purgedJson (text "/w==") (text "base64")) := by
    decide +kernel
  exact jsonReplies coreDecodes encodesBase64 escapingJson sent

end CachePurge
