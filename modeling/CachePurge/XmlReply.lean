import CachePurge.KeyEscape
import CachePurge.KeyText

/-! A successful XML reply and the processor that reads it. The processor refuses what is
not UTF-8 of allowed characters, turns every end of a line into LF, and gives the texts of
the elements, the sections of the key put together. It gives the key back where the key
is such text and has no CR; a key that is not accepted as text comes as Base64. -/
namespace CachePurge
open General

/- Line ends, as XML 1.0 has them normalised before anything is parsed. -/
def lineEnds : Bytes → Bytes
  | 13 :: 10 :: s => 10 :: lineEnds s
  | 13 :: s => 10 :: lineEnds s
  | c :: s => c :: lineEnds s
  | [] => []

def consume (mark s : Bytes) : Option Bytes := if mark <+: s then some (s.drop mark.length) else none

/- Character data and CDATA sections up to the next tag. References are not expanded:
outside the sections these replies have no ampersand. -/
def content : Nat → Bytes → Option (Bytes × Bytes)
  | 0, _ => none
  | fuel + 1, s => match readSection cdataOpening cdataEnd.text s with
    | some (inner, rest) => (content fuel rest).map fun more => (inner ++ more.1,more.2)
    | none => match s with
      | [] => none
      | c :: rest =>
        if c = 60 then some ([],c :: rest)
        else if c = 38 ∨ cdataEnd.text <+: c :: rest then none
        else (content fuel rest).map fun more => (c :: more.1,more.2)

def element (name s : Bytes) : Option (Bytes × Bytes) := do
  let s ← consume (text "<" ++ name ++ text ">") s
  let (inner,s) ← content (s.length + 1) s
  let s ← consume (text "</" ++ name ++ text ">") s
  some (inner,s)

structure XmlReply where
  key : Bytes
  code : Bytes
  encoding : Bytes
  deriving DecidableEq, Repr

def readReply (s : Bytes) : Option XmlReply := do
  let s ← consume (text "<?xml version=\"1.0\" encoding=\"UTF-8\"?>") s
  let s ← consume (text "<response>") s
  let (key,s) ← element (text "Key") s
  let (code,s) ← element (text "Code") s
  let (encoding,s) ← element (text "KeyEncoding") s
  let s ← consume (text "</response>") s
  if s = [] then some ⟨key,code,encoding⟩ else none

def Recovers (document : Bytes) (reply : XmlReply) : Prop :=
  XmlText document ∧ readReply (lineEnds document) = some reply

section lines

theorem lineEndsClean (s : Bytes) : 13 ∉ lineEnds s := by
  fun_induction lineEnds s with
  | case1 s ih => simpa using ih
  | case2 s _ ih => simpa using ih
  | case3 c s first other ih =>
    have apart : ¬ (13 : UInt8) = c := fun same => other same.symm
    simpa [apart] using ih
  | case4 => simp

theorem lineEndsSame {s : Bytes} (clean : 13 ∉ s) : lineEnds s = s := by
  fun_induction lineEnds s with
  | case1 s ih => simp at clean
  | case2 s _ ih => simp at clean
  | case3 c s first other ih => rw [ih fun member => clean (List.mem_cons_of_mem c member)]
  | case4 => rfl

end lines

section characters

def Plain (s : Bytes) : Prop := ∀ b ∈ s, b.toNat < 0x80 ∧ XmlChar b.toNat

instance (c : Nat) : Decidable (XmlChar c) := inferInstanceAs (Decidable (_ ∨ _))

instance (s : Bytes) : Decidable (Plain s) := List.decidableBAll _ s

theorem plainText {s : Bytes} (plain : Plain s) : Sentence xmlWords s := by
  induction s with
  | nil => exact sentenceNil
  | cons b s ih =>
    obtain ⟨ascii,allowed⟩ := plain b List.mem_cons_self
    have word : [b] ∈ xmlWords :=
      xmlWordsTail.mpr ⟨⟨b.toNat,spelledSpelling.mpr (.one ascii),allowed⟩,by simp⟩
    exact sentenceAppend (sentenceWord word) (ih fun c member => plain c (List.mem_cons_of_mem b member))

theorem xmlWordsFree : PrefixFree xmlWords := readWordsFree.subcode xmlWordsInside

theorem xmlWordsFirst : ∀ w ∈ xmlWords, ∀ b ∈ w.tail, ¬ b.toNat < 0x80 := by
  intro w word b later ascii
  obtain ⟨v,read,_⟩ := xmlWordsInside word
  cases spelledSpelling.mp read with
  | one => simp at later
  | two _ high =>
    simp only [List.tail_cons,List.mem_singleton] at later
    subst later
    omega
  | three _ high =>
    simp only [List.tail_cons,List.mem_cons,List.not_mem_nil,or_false] at later
    rcases later with rfl | rfl <;> omega
  | four _ high =>
    simp only [List.tail_cons,List.mem_cons,List.not_mem_nil,or_false] at later
    rcases later with rfl | rfl | rfl <;> omega

theorem xmlCut {front back : Bytes} {b : UInt8} (ascii : b.toNat < 0x80)
    (document : Sentence xmlWords (front ++ b :: back)) :
    Sentence xmlWords front ∧ Sentence xmlWords (b :: back) :=
  sentenceCut (q := fun b : UInt8 => b.toNat < 0x80) xmlWordsFirst ascii document

end characters

section sections

theorem openingPlain : Plain cdataOpening := by decide
theorem endPlain : Plain cdataEnd.text := by decide

theorem piecesText (first : Bytes) (later : List Bytes) (begins : ∀ content ∈ later, cdataEnd.right <+: content) :
    Sentence xmlWords (first :: later).flatten ↔ ∀ content ∈ first :: later, Sentence xmlWords content := by
  induction later generalizing first with
  | nil => simp
  | cons next later ih =>
    have rest := ih next fun content member => begins content (List.mem_cons_of_mem _ member)
    rw [List.flatten_cons,List.forall_mem_cons,← rest]
    constructor
    · intro document
      obtain ⟨after,same⟩ := begins next List.mem_cons_self
      have head : (next :: later).flatten = 62 :: (after ++ later.flatten) := by
        rw [List.flatten_cons,← same,List.append_assoc]
        rfl
      rw [head] at document ⊢
      exact xmlCut (by decide) document
    · rintro ⟨left,right⟩
      exact sentenceAppend left right

theorem sectionsText (contents : List Bytes) (tail : Bytes) :
    Sentence xmlWords (contents.flatMap (fun content => cdataOpening ++ content ++ cdataEnd.text) ++ tail) ↔
      (∀ content ∈ contents, Sentence xmlWords content) ∧ Sentence xmlWords tail := by
  induction contents with
  | nil => simp
  | cons content contents ih =>
    rw [List.flatMap_cons,List.append_assoc,List.append_assoc,List.append_assoc,
      xmlWordsFree.sentenceDrop (plainText openingPlain),List.forall_mem_cons,and_assoc,← ih]
    constructor
    · intro document
      obtain ⟨left,right⟩ := xmlCut (b := 93) (by decide) document
      exact ⟨left,(xmlWordsFree.sentenceDrop (plainText endPlain)).mp right⟩
    · rintro ⟨left,right⟩
      exact sentenceAppend left (sentenceAppend (plainText endPlain) right)

theorem splicedText (key tail : Bytes) (plain : Plain tail) :
    Sentence xmlWords (cdataOpening ++ cdataEnd.spliced cdataOpening key ++ cdataEnd.text ++ tail) ↔
      Sentence xmlWords key := by
  have whole := cdataEnd.contentsJoin key
  rw [cdataEnd.splicedJoin,sectionsText,and_iff_left (plainText plain)]
  rw [Terminator.contents] at whole ⊢
  rw [← piecesText _ _ (cdataEnd.piecesBegin key),whole]

end sections
section reading

theorem consumeFront (mark s : Bytes) : consume mark (mark ++ s) = some s := by
  rw [consume,if_pos (List.prefix_append mark s),List.drop_left]

theorem noSection {c d : UInt8} {s : Bytes} (other : c ≠ 60 ∨ d ≠ 33) :
    readSection cdataOpening cdataEnd.text (c :: d :: s) = none := by
  refine if_neg fun begins => ?_
  have opening : cdataOpening = 60 :: 33 :: text "[CDATA[" := by decide
  rw [opening,List.cons_prefix_cons,List.cons_prefix_cons] at begins
  rcases other with first | second
  · exact first begins.1.symm
  · exact second begins.2.1.symm

theorem contentTag (fuel : Nat) (s : Bytes) : content (fuel + 1) (text "</" ++ s) = some ([],text "</" ++ s) := by
  have opened : text "</" ++ s = 60 :: 47 :: s := rfl
  rw [opened,content,noSection (.inr (by decide))]
  rfl

def Holds (s inner : Bytes) : Prop := ∀ tail, ∃ n, n ≤ s.length ∧
  ∀ fuel, content (n + (fuel + 1)) (s ++ (text "</" ++ tail)) = some (inner,text "</" ++ tail)

theorem contentSection {s inner rest : Bytes} (read : readSection cdataOpening cdataEnd.text s = some (inner,rest))
    (fuel : Nat) : content (fuel + 1) s = (content fuel rest).map fun more => (inner ++ more.1,more.2) := by
  cases s with
  | nil => rw [content,read]
  | cons c s => rw [content,read]

theorem contentSections {s tail : Bytes} {contents : List Bytes}
    (sections : General.Sections cdataOpening cdataEnd.text s contents tail) (fuel : Nat) :
    content (contents.length + fuel) s =
      (content fuel tail).map fun more => (contents.flatten ++ more.1,more.2) := by
  induction sections with
  | nil s => simp
  | @cons s inner rest contents tail read _ ih =>
    rw [List.length_cons,Nat.add_right_comm,contentSection read,ih,Option.map_map]
    simp only [Function.comp_def,List.flatten_cons,List.append_assoc]

theorem holdsKey (key : Bytes) : Holds (cdataOpening ++ cdataEnd.spliced cdataOpening key ++ cdataEnd.text) key := by
  intro tail
  have read (after : Bytes) := cdataEnd.splicedSections cdataOpening key after
  have short := sectionsShorter (by decide) (read [])
  rw [List.append_nil,List.length_nil,Nat.zero_add] at short
  refine ⟨(cdataEnd.contents key).length,short,fun fuel => ?_⟩
  rw [contentSections (read (text "</" ++ tail)),contentTag,cdataEnd.contentsJoin]
  simp

theorem holdsPlain {s : Bytes} (plain : ∀ c ∈ s, c ≠ 60 ∧ c ≠ 38 ∧ c ≠ 93) : Holds s s := by
  intro tail
  refine ⟨s.length,Nat.le_refl _,fun fuel => ?_⟩
  induction s with
  | nil => simpa using contentTag fuel tail
  | cons c s ih =>
    obtain ⟨tag,reference,bracket⟩ := plain c List.mem_cons_self
    have none_ : readSection cdataOpening cdataEnd.text (c :: (s ++ (text "</" ++ tail))) = none := by
      obtain ⟨d,more,split_⟩ : ∃ d more, s ++ (text "</" ++ tail) = d :: more :=
        List.exists_cons_of_ne_nil (by simp [text])
      rw [split_]
      exact noSection (.inl tag)
    have other : ¬ (c = 38 ∨ cdataEnd.text <+: c :: (s ++ (text "</" ++ tail))) := by
      rintro (same | begins)
      · exact reference same
      · have written : cdataEnd.text = 93 :: [93,62] := rfl
        rw [written,List.cons_prefix_cons] at begins
        exact bracket begins.1.symm
    rw [List.length_cons,Nat.add_right_comm,List.cons_append,content,none_]
    simp only [if_neg tag,if_neg other]
    rw [ih fun d member => plain d (List.mem_cons_of_mem c member)]
    rfl

theorem elementHolds {s inner : Bytes} (holds : Holds s inner) (name after : Bytes) :
    element name (text "<" ++ name ++ text ">" ++ (s ++ (text "</" ++ (name ++ text ">" ++ after)))) =
      some (inner,after) := by
  obtain ⟨n,short,read⟩ := holds (name ++ text ">" ++ after)
  have closing : text "</" ++ (name ++ text ">" ++ after) = text "</" ++ name ++ text ">" ++ after := by
    simp only [List.append_assoc]
  have enough : (s ++ (text "</" ++ (name ++ text ">" ++ after))).length + 1 =
      n + ((s ++ (text "</" ++ (name ++ text ">" ++ after))).length - n + 1) := by
    rw [List.length_append]
    omega
  unfold element
  rw [consumeFront]
  simp only [bind,Option.bind_some]
  rw [enough,read]
  simp only [Option.bind_some]
  rw [closing,consumeFront]
  rfl

end reading
section replies

theorem replyMarks (key code encoding : Bytes) :
    bodyOpening .xml ++ cdataEnd.spliced cdataOpening key ++ xmlClosing code encoding =
      text "<?xml version=\"1.0\" encoding=\"UTF-8\"?>" ++ (text "<response>" ++
      (text "<" ++ text "Key" ++ text ">" ++ ((cdataOpening ++ cdataEnd.spliced cdataOpening key ++ cdataEnd.text) ++
        (text "</" ++ (text "Key" ++ text ">" ++
      (text "<" ++ text "Code" ++ text ">" ++ (code ++ (text "</" ++ (text "Code" ++ text ">" ++
      (text "<" ++ text "KeyEncoding" ++ text ">" ++ (encoding ++ (text "</" ++ (text "KeyEncoding" ++ text ">" ++
        (text "</response>" ++ [])))))))))))))) := by
  have opening : bodyOpening .xml = text "<?xml version=\"1.0\" encoding=\"UTF-8\"?>" ++ (text "<response>" ++
      (text "<" ++ text "Key" ++ text ">" ++ cdataOpening)) := by decide
  have first : text "]]></Key><Code>" = cdataEnd.text ++ (text "</" ++ (text "Key" ++ text ">" ++
      (text "<" ++ text "Code" ++ text ">"))) := by decide
  have second : text "</Code><KeyEncoding>" = text "</" ++ (text "Code" ++ text ">" ++
      (text "<" ++ text "KeyEncoding" ++ text ">")) := by decide
  have third : text "</KeyEncoding></response>" = text "</" ++ (text "KeyEncoding" ++ text ">" ++
      text "</response>") := by decide
  rw [xmlClosing,bodyClosing,opening,first,second,third]
  simp only [List.append_assoc,List.append_nil]

def Word (s : Bytes) : Prop := ∀ c ∈ s, c.toNat < 0x80 ∧ XmlChar c.toNat ∧ c ≠ 60 ∧ c ≠ 38 ∧ c ≠ 93 ∧ c ≠ 13

instance (s : Bytes) : Decidable (Word s) := List.decidableBAll _ s

theorem codeWord (code : ResultCode) : Word (response code).code := by
  cases code <;> decide

theorem readSpliced {key code encoding : Bytes} (codePlain : Word code) (encodingPlain : Word encoding) :
    readReply (bodyOpening .xml ++ cdataEnd.spliced cdataOpening key ++ xmlClosing code encoding) =
      some ⟨key,code,encoding⟩ := by
  have marks {s : Bytes} (plain : Word s) : Holds s s := holdsPlain fun c member => by
    obtain ⟨_,_,tag,reference,bracket,_⟩ := plain c member
    exact ⟨tag,reference,bracket⟩
  rw [replyMarks]
  unfold readReply
  simp only [bind,consumeFront,Option.bind_some,elementHolds (holdsKey key),elementHolds (marks codePlain),
    elementHolds (marks encodingPlain)]
  rfl

theorem bodyText (key : Bytes) {code encoding : Bytes} (codePlain : Word code) (encodingPlain : Word encoding) :
    Sentence xmlWords (bodyOpening .xml ++ cdataEnd.spliced cdataOpening key ++ xmlClosing code encoding) ↔
      Sentence xmlWords key := by
  have plain {s : Bytes} (word : Word s) : Plain s := fun c member => ⟨(word c member).1,(word c member).2.1⟩
  have front : Plain (text "<?xml version=\"1.0\" encoding=\"UTF-8\"?><response><Key>") := by decide
  have tail : Plain (text "</Key><Code>" ++ code ++ text "</Code><KeyEncoding>" ++ encoding ++
      text "</KeyEncoding></response>") := by
    have first : Plain (text "</Key><Code>") := by decide
    have second : Plain (text "</Code><KeyEncoding>") := by decide
    have third : Plain (text "</KeyEncoding></response>") := by decide
    intro b member
    simp only [List.mem_append] at member
    rcases member with (((here | here) | here) | here) | here
    · exact first b here
    · exact plain codePlain b here
    · exact second b here
    · exact plain encodingPlain b here
    · exact third b here
  have opening : bodyOpening .xml =
      text "<?xml version=\"1.0\" encoding=\"UTF-8\"?><response><Key>" ++ cdataOpening := by decide
  have closing : text "]]></Key><Code>" = cdataEnd.text ++ text "</Key><Code>" := by decide
  have whole : bodyOpening .xml ++ cdataEnd.spliced cdataOpening key ++ xmlClosing code encoding =
      text "<?xml version=\"1.0\" encoding=\"UTF-8\"?><response><Key>" ++
        (cdataOpening ++ cdataEnd.spliced cdataOpening key ++ cdataEnd.text ++ (text "</Key><Code>" ++ code ++
          text "</Code><KeyEncoding>" ++ encoding ++ text "</KeyEncoding></response>")) := by
    rw [xmlClosing,bodyClosing,opening,closing]
    simp only [List.append_assoc]
  rw [whole,xmlWordsFree.sentenceDrop (plainText front)]
  exact splicedText key _ tail

theorem bodyClean {key code encoding : Bytes} (codePlain : Word code) (encodingPlain : Word encoding)
    (clean : 13 ∉ key) :
    13 ∉ bodyOpening .xml ++ cdataEnd.spliced cdataOpening key ++ xmlClosing code encoding := by
  have absent {s : Bytes} (word : Word s) : 13 ∉ s := fun member => (word 13 member).2.2.2.2.2 rfl
  have marks : 13 ∉ cdataOpening ++ cdataEnd.spliced cdataOpening key ++ cdataEnd.text := by
    rw [cdataEnd.splicedJoin]
    intro member
    obtain ⟨content,inside,here⟩ := List.mem_flatMap.mp member
    simp only [List.mem_append] at here
    rcases here with (here | here) | here
    · exact absurd here (by decide)
    · apply clean
      rw [← cdataEnd.contentsJoin key]
      exact List.mem_flatten.mpr ⟨content,inside,here⟩
    · exact absurd here (by decide)
  simp only [List.mem_append,not_or] at marks
  simp only [xmlClosing,bodyClosing,List.mem_append,not_or]
  refine ⟨⟨by decide,marks.1.2⟩,⟨⟨⟨?_,absent codePlain⟩,?_⟩,absent encodingPlain⟩,?_⟩ <;> decide

end replies

section inside

theorem consumeInside {mark s rest : Bytes} (read : consume mark s = some rest) : ∀ c ∈ rest, c ∈ s := by
  unfold consume at read
  split at read
  · cases Option.some.inj read
    exact fun c member => List.mem_of_mem_drop member
  · contradiction

theorem contentInside {fuel : Nat} {s inner rest : Bytes} (read : content fuel s = some (inner,rest)) :
    (∀ c ∈ inner, c ∈ s) ∧ ∀ c ∈ rest, c ∈ s := by
  induction fuel generalizing s inner rest with
  | zero => contradiction
  | succ fuel ih =>
    cases found : readSection cdataOpening cdataEnd.text s with
    | some cut =>
      rw [contentSection found] at read
      obtain ⟨more,later,same⟩ := Option.map_eq_some_iff.mp read
      cases same
      obtain ⟨_,front,back⟩ := readSectionShorter found
      obtain ⟨left,right⟩ := ih later
      refine ⟨fun c member => ?_,fun c member => back c (right c member)⟩
      rcases List.mem_append.mp member with first | second
      · exact front c first
      · exact back c (left c second)
    | none =>
      cases s with
      | nil =>
        rw [content,found] at read
        contradiction
      | cons c s =>
        rw [content,found] at read
        dsimp only at read
        split at read
        · cases Option.some.inj read
          exact ⟨by simp,fun d member => member⟩
        split at read
        · contradiction
        · obtain ⟨more,later,same⟩ := Option.map_eq_some_iff.mp read
          cases same
          obtain ⟨left,right⟩ := ih later
          refine ⟨fun d member => ?_,fun d member => List.mem_cons_of_mem c (right d member)⟩
          rcases List.mem_cons.mp member with rfl | member
          · exact List.mem_cons_self
          · exact List.mem_cons_of_mem c (left d member)

theorem elementInside {name s inner rest : Bytes} (read : element name s = some (inner,rest)) :
    ∀ c ∈ inner, c ∈ s := by
  unfold element at read
  simp only [bind,Option.bind_eq_some_iff] at read
  obtain ⟨opened,start,⟨inner',after⟩,held,closed,_,same⟩ := read
  cases Option.some.inj same
  exact fun c member => consumeInside start c ((contentInside held).1 c member)

theorem readInside {s : Bytes} {reply : XmlReply} (read : readReply s = some reply) : ∀ c ∈ reply.key, c ∈ s := by
  unfold readReply at read
  simp only [bind,Option.bind_eq_some_iff] at read
  obtain ⟨_,declaration,_,root,⟨key,_⟩,first,⟨code,_⟩,_,⟨encoding,_⟩,_,_,_,last⟩ := read
  split at last
  · cases Option.some.inj last
    exact fun c member => consumeInside declaration c (consumeInside root c (elementInside first c member))
  · contradiction

end inside
/- What the core documents of ngx_encode_base64. -/
def base64Byte (c : UInt8) : Bool :=
  (65 ≤ c && c ≤ 90) || (97 ≤ c && c ≤ 122) || isDigit c || c == 43 || c == 47 || c == 61

structure Base64Encodes (encode : Bytes → Bytes) : Prop where
  alphabet : ∀ raw, ∀ c ∈ encode raw, base64Byte c = true

theorem base64Plain {c : UInt8} (inside : base64Byte c = true) : c.toNat < 0x80 ∧ XmlChar c.toNat ∧ c ≠ 13 := by
  have all : ∀ n : Fin 256, base64Byte (UInt8.ofNat n) = true →
      (UInt8.ofNat n).toNat < 0x80 ∧ XmlChar (UInt8.ofNat n).toNat ∧ UInt8.ofNat n ≠ 13 := by decide +kernel
  have here := all ⟨c.toNat,c.toNat_lt⟩
  simp only [UInt8.ofNat_toNat] at here
  exact here inside

def States (body encoding : Bytes) : Prop :=
  text "<KeyEncoding>" ++ encoding ++ text "</KeyEncoding></response>" <:+ body

def Lossless (core : ReplyCore) (key body : Bytes) : Prop :=
  ∃ reply, Recovers body reply ∧ States body reply.encoding ∧
    ((reply.encoding = text "utf-8" ∧ reply.key = key) ∨
      (reply.encoding = text "base64" ∧ reply.key = core.encodeBase64 key))

section lossless
variable {core : ReplyCore} {result : Result}

theorem statesClosing (front code encoding : Bytes) : States (front ++ xmlClosing code encoding) encoding := by
  have second : text "</Code><KeyEncoding>" = text "</Code>" ++ text "<KeyEncoding>" := by decide
  refine ⟨front ++ text "]]></Key><Code>" ++ code ++ text "</Code>",?_⟩
  rw [xmlClosing,bodyClosing,second]
  simp only [List.append_assoc]

theorem statesOnce {body : Bytes} (left : States body (text "utf-8")) (right : States body (text "base64")) : False := by
  have short := List.suffix_of_suffix_length_le left right (by decide)
  exact absurd short (by decide +kernel)

theorem recoversKey {key encoding : Bytes} (key_ : Sentence xmlWords key) (clean : 13 ∉ key) (word : Word encoding) :
    Recovers (successBody core result key encoding .xml) ⟨key,(response result.code).code,encoding⟩ := by
  have code := codeWord result.code
  rw [xmlBody]
  refine ⟨(xmlTextSentence _).mpr ((bodyText key code word).mpr key_),?_⟩
  rw [lineEndsSame (bodyClean code word clean)]
  exact readSpliced code word

theorem recoveredKey {key : Bytes}
    (lossless : Lossless core key (successBody core result key (text "utf-8") .xml)) :
    Sentence xmlWords key ∧ 13 ∉ key := by
  obtain ⟨reply,⟨document,read⟩,states,either⟩ := lossless
  rw [xmlBody] at document read states
  have word : Word (text "utf-8") := by decide
  refine ⟨(bodyText key (codeWord result.code) word).mp ((xmlTextSentence _).mp document),?_⟩
  rcases either with ⟨_,same⟩ | ⟨other,_⟩
  · rw [← same]
    exact fun member => lineEndsClean _ (readInside read 13 member)
  · rw [other] at states
    exact (statesOnce (statesClosing _ _ _) states).elim

theorem sentXml {bits : Nat} {conf : ReplyConf} {memory : ReplyMemory} {keys : List Str} {status capacity : Nat}
    {contentType body : Bytes} (xml : conf.type = .xml) (fine : (response result.code).status < 400)
    (sent : sendResult core bits conf memory keys result = .full status contentType capacity body) :
    ∃ key encoding, replyKey core memory (keys.head?.getD .null) = some (key,encoding) ∧
      body = successBody core result key encoding .xml := by
  have success : ¬ 400 ≤ (response result.code).status := by omega
  simp only [sendResult,xml,success,if_false,reduceCtorEq] at sent
  split at sent
  · contradiction
  split at sent
  · contradiction
  split at sent
  · contradiction
  · rename_i key encoding found
    split at sent
    · contradiction
    · cases sent
      exact ⟨key,encoding,found,rfl⟩

theorem replyKeyEncoded (decodes : Utf8Decodes core.utf8Decode) {memory : ReplyMemory} {key : Str} {s encoding : Bytes}
    (encoded : replyKey core memory key = some (s,encoding)) :
    (Sentence readWords key.bytes ∧ s = key.bytes ∧ encoding = text "utf-8") ∨
    (¬ Sentence readWords key.bytes ∧ s = core.encodeBase64 key.bytes ∧ encoding = text "base64") := by
  unfold replyKey at encoded
  split at encoded
  · rename_i empty
    cases encoded
    have none_ : key.bytes = [] := by rw [← List.length_eq_zero_iff,strLength,empty]
    rw [none_]
    exact .inl ⟨sentenceNil,rfl,rfl⟩
  · obtain ⟨answer,reads,done,_,accepted⟩ := textKeyReads decodes key
    rw [done] at encoded
    cases answer with
    | true =>
      cases encoded
      exact .inl ⟨accepted.mp rfl,rfl,rfl⟩
    | false =>
      dsimp only at encoded
      split at encoded
      · cases encoded
        exact .inr ⟨fun sentence => Bool.false_ne_true (accepted.mpr sentence),rfl,rfl⟩
      · contradiction

end lossless

/- A successful XML reply is lossless exactly where its key is not taken for text, or has
neither a CR nor a later byte above 0xbf. -/
theorem xmlLossless {core : ReplyCore} (decodes : Utf8Decodes core.utf8Decode)
    (base64 : Base64Encodes core.encodeBase64) {bits : Nat} {conf : ReplyConf} {memory : ReplyMemory} {keys : List Str}
    {result : Result} {status capacity : Nat} {contentType body : Bytes} (xml : conf.type = .xml)
    (fine : (response result.code).status < 400)
    (sent : sendResult core bits conf memory keys result = .full status contentType capacity body) :
    let key := (keys.head?.getD .null).bytes
    Lossless core key body ↔ (Sentence readWords key → 13 ∉ key ∧ ¬ IllSpelled key) := by
  intro key
  obtain ⟨s,encoding,encoded,rfl⟩ := sentXml xml fine sent
  rcases replyKeyEncoded decodes encoded with ⟨accepted,rfl,rfl⟩ | ⟨refused,rfl,rfl⟩
  · constructor
    · intro lossless _
      obtain ⟨document,clean⟩ := recoveredKey lossless
      exact ⟨clean,((sentenceXml key).mp ((xmlTextSentence key).mpr document)).2⟩
    · intro sound
      obtain ⟨clean,spelled⟩ := sound accepted
      have document := (xmlTextSentence key).mp ((sentenceXml key).mpr ⟨accepted,spelled⟩)
      refine ⟨_,recoversKey document clean (by decide +kernel),?_,.inl ⟨rfl,rfl⟩⟩
      rw [xmlBody]
      exact statesClosing _ _ _
  · refine iff_of_true ?_ fun accepted => absurd accepted refused
    have plain := fun c member => base64Plain (base64.alphabet key c member)
    have document : Sentence xmlWords (core.encodeBase64 key) :=
      plainText fun c member => ⟨(plain c member).1,(plain c member).2.1⟩
    refine ⟨_,recoversKey document (fun member => (plain 13 member).2.2 rfl) (by decide +kernel),?_,.inr ⟨rfl,rfl⟩⟩
    rw [xmlBody]
    exact statesClosing _ _ _

def base64Char (n : Nat) : UInt8 :=
  if n < 26 then (65 + n).toUInt8 else if n < 52 then (71 + n).toUInt8 else if n < 62 then (n - 4).toUInt8
  else if n = 62 then 43 else 47

def encodeBase64 : Bytes → Bytes
  | a :: b :: c :: raw =>
    [base64Char (a.toNat / 4),base64Char (a.toNat % 4 * 16 + b.toNat / 16),
      base64Char (b.toNat % 16 * 4 + c.toNat / 64),base64Char (c.toNat % 64)] ++ encodeBase64 raw
  | [a,b] =>
    [base64Char (a.toNat / 4),base64Char (a.toNat % 4 * 16 + b.toNat / 16),base64Char (b.toNat % 16 * 4),61]
  | [a] => [base64Char (a.toNat / 4),base64Char (a.toNat % 4 * 16),61,61]
  | [] => []

theorem encodesBase64 : Base64Encodes encodeBase64 := by
  have inside (n : Nat) : base64Byte (base64Char n) = true := by
    by_cases small : n < 64
    · have all : ∀ n : Fin 64, base64Byte (base64Char n) = true := by decide +kernel
      exact all ⟨n,small⟩
    · have last : base64Char n = 47 := by
        rw [base64Char,if_neg (by omega),if_neg (by omega),if_neg (by omega),if_neg (by omega)]
      rw [last]
      decide
  have pad : base64Byte 61 = true := by decide
  refine ⟨fun raw => ?_⟩
  induction raw using encodeBase64.induct with
  | case1 a b c raw ih =>
    intro d member
    simp only [encodeBase64,List.cons_append,List.nil_append,List.mem_cons] at member
    rcases member with rfl | rfl | rfl | rfl | member
    · exact inside _
    · exact inside _
    · exact inside _
    · exact inside _
    · exact ih d member
  | case2 a b =>
    intro d member
    simp only [encodeBase64,List.mem_cons,List.not_mem_nil,or_false] at member
    rcases member with rfl | rfl | rfl | rfl
    · exact inside _
    · exact inside _
    · exact inside _
    · exact pad
  | case3 a =>
    intro d member
    simp only [encodeBase64,List.mem_cons,List.not_mem_nil,or_false] at member
    rcases member with rfl | rfl | rfl | rfl
    · exact inside _
    · exact inside _
    · exact pad
    · exact pad
  | case4 => simp [encodeBase64]

def plainCore : ReplyCore where
  utf8Decode := coreDecode
  encodeBase64 := encodeBase64
  escapeJson dst src := dst.elim (.count 0) fun written => .last (written ++ src)
  escapeHtml dst src := dst.elim (.count 0) fun written => .last (written ++ src)

def purgedOne : Result := ⟨.purged,1,0,0,true⟩

def xmlReplyTo (key : Bytes) : Reply :=
  sendResult plainCore 64 ⟨.xml,false,false⟩ ⟨true,true,true⟩ [strOf key] purgedOne

theorem xmlReplySplit : xmlReplyTo (text "a]]>b") = .full 200 (text "application/xml") 2078
    (successBody plainCore purgedOne (text "a]]>b") (text "utf-8") .xml) := by decide +kernel

theorem xmlLosslessSplit : Lossless plainCore (strOf (text "a]]>b")).bytes
      (successBody plainCore purgedOne (text "a]]>b") (text "utf-8") .xml) ↔
    (Sentence readWords (strOf (text "a]]>b")).bytes →
      13 ∉ (strOf (text "a]]>b")).bytes ∧ ¬ IllSpelled (strOf (text "a]]>b")).bytes) :=
  @xmlLossless plainCore coreDecodes encodesBase64 64 ⟨.xml,false,false⟩ ⟨true,true,true⟩ [strOf (text "a]]>b")]
    purgedOne 200 2078 (text "application/xml") _ rfl (by decide) xmlReplySplit

theorem xmlReplyCr : ¬ ∀ (core : ReplyCore) (bits : Nat) (conf : ReplyConf) (memory : ReplyMemory) (keys : List Str)
    (result : Result) (status capacity : Nat) (contentType body : Bytes), Utf8Decodes core.utf8Decode →
    Base64Encodes core.encodeBase64 → conf.type = .xml → (response result.code).status < 400 →
    sendResult core bits conf memory keys result = .full status contentType capacity body →
    Lossless core (keys.head?.getD .null).bytes body := by
  intro always
  have sent : xmlReplyTo (text "a\rb") = .full 200 (text "application/xml") 2066
    (successBody plainCore purgedOne (text "a\rb") (text "utf-8") .xml) := by decide +kernel
  have lossless := always plainCore 64 ⟨.xml,false,false⟩ ⟨true,true,true⟩ [strOf (text "a\rb")] purgedOne 200 2066
    (text "application/xml") _ coreDecodes encodesBase64 rfl (by decide) sent
  have bytes : (strOf (text "a\rb")).bytes = text "a\rb" := by decide
  exact (recoveredKey (bytes ▸ lossless)).2 (by decide)

end CachePurge
