import CachePurge.General.Sections
import CachePurge.Response

/-! The key in a CDATA section. The escape of XML cuts each terminator of the key in
two; it is the writer of sections with the marks of XML, and the counting mode counts
what the writing mode adds. -/
namespace CachePurge
open General

def cdataOpening : Bytes := text "<![CDATA["

def cdataEnd : Terminator UInt8 where
  left := text "]]"
  right := text ">"
  leftNonempty := by decide
  rightNonempty := by decide
  unbordered u v cut front back := by
    have cut : ([93,93,62] : Bytes) = u ++ v := cut
    rcases u with _ | ⟨a,_ | ⟨b,u⟩⟩
    · contradiction
    · cases cut
      decide
    · rcases List.cons.inj (List.cons.inj cut).2 with ⟨_,last⟩
      cases u with
      | nil =>
        cases last
        decide
      | cons c u =>
        have none_ : v = [] := (List.append_eq_nil_iff.mp (List.cons.inj last).2.symm).2
        contradiction

theorem cdataAbsent {c : UInt8} {rest : Bytes} (other : ∀ src, c = 93 → rest = 93 :: 62 :: src → False) :
    ¬ cdataEnd.text <+: c :: rest := by
  rintro ⟨src,same⟩
  obtain ⟨first,later⟩ := List.cons.inj same
  exact other src first.symm later.symm

theorem cdataSpliced (dst : Option Bytes) (extra : Nat) (key : Bytes) : escapeCdata dst extra key =
    dst.elim (.count (extra + (cdataEnd.pieces key).2.length * 12))
      fun written => .last (written ++ cdataEnd.spliced cdataOpening key) := by
  fun_induction escapeCdata dst extra key with
  | case1 dst extra src ih =>
    have found : 93 :: 93 :: 62 :: src = cdataEnd.text ++ src := rfl
    rw [ih,found,cdataEnd.splicedFound,cdataEnd.piecesFound]
    cases dst with
    | none =>
      simp only [Option.map_none,Option.elim_none,List.length_cons]
      congr 1
      omega
    | some written =>
      simp only [Option.map_some,Option.elim_some,List.append_assoc]
      rfl
  | case2 dst extra c src other ih =>
    have absent := cdataAbsent other
    rw [ih,cdataEnd.splicedOther cdataOpening absent,cdataEnd.piecesOther absent]
    cases dst <;> simp
  | case3 extra written => simp
  | case4 extra => simp

theorem cdataAdds (key : Bytes) : (cdataEnd.spliced cdataOpening key).length =
      key.length + (cdataEnd.pieces key).2.length * 12 ∧
    (cdataEnd.pieces key).2.length * 3 ≤ key.length :=
  ⟨cdataEnd.splicedLength cdataOpening key,cdataEnd.piecesLength key⟩

theorem escapeXml (core : ReplyCore) (dst : Option Bytes) (key : Bytes) : escapeKey core dst key .xml =
    dst.elim (.count ((cdataEnd.pieces key).2.length * 12))
      fun written => .last (written ++ cdataEnd.spliced cdataOpening key) := by
  unfold escapeKey
  split
  · rename_i empty
    rw [List.length_eq_zero_iff.mp empty]
    cases dst <;> simp
  · rw [cdataSpliced,Nat.zero_add]

theorem codeShort (code : ResultCode) : (response code).code.length ≤ 18 := by
  cases code <;> decide

/- The end of an XML body says nothing of completeness. -/
def xmlClosing (code encoding : Bytes) : Bytes := bodyClosing code encoding true true .xml

theorem xmlBody (core : ReplyCore) (result : Result) (key encoding : Bytes) :
    successBody core result key encoding .xml = bodyOpening .xml ++ cdataEnd.spliced cdataOpening key ++
      xmlClosing (response result.code).code encoding := by
  rw [successBody,escapeXml]
  rfl

theorem xmlFits (core : ReplyCore) (result : Result) (key : Bytes) {encoding : Bytes}
    (short : encoding.length ≤ 6) :
    (successBody core result key encoding .xml).length ≤ 2048 + key.length * 6 := by
  have code := codeShort result.code
  obtain ⟨grown,fits⟩ := cdataAdds key
  have opening : (bodyOpening .xml).length = 62 := by decide
  have closing : (xmlClosing (response result.code).code encoding).length =
      15 + (response result.code).code.length + 20 + encoding.length + 25 := by
    simp only [xmlClosing,bodyClosing,List.length_append]
    rfl
  rw [xmlBody,List.length_append,List.length_append,grown,opening,closing]
  omega

/- The escaped key between the marks is read as the sections that the escape made,
whatever follows it, and their contents make up the key. -/
theorem cdataReversible (core : ReplyCore) (key : Bytes) :
    ∃ out, (∀ written, escapeKey core (some written) key .xml = .last (written ++ out)) ∧
      cdataOpening ++ out ++ cdataEnd.text =
        (cdataEnd.contents key).flatMap (fun content => cdataOpening ++ content ++ cdataEnd.text) ∧
      (cdataEnd.contents key).flatten = key ∧
      (∀ after, General.Sections cdataOpening cdataEnd.text (cdataOpening ++ out ++ cdataEnd.text ++ after)
        (cdataEnd.contents key) after) ∧
      (∀ after contents tail, readSection cdataOpening cdataEnd.text after = none →
        readSection cdataOpening cdataEnd.text tail = none →
        General.Sections cdataOpening cdataEnd.text (cdataOpening ++ out ++ cdataEnd.text ++ after) contents tail →
        contents = cdataEnd.contents key ∧ tail = after) ∧
      key.length ≤ out.length ∧ escapeKey core none key .xml = .count (out.length - key.length) ∧
      out.length ≤ 5 * key.length ∧
      ∀ result encoding, encoding = text "utf-8" ∨ encoding = text "base64" →
        (successBody core result key encoding .xml).length ≤ 2048 + 6 * key.length := by
  obtain ⟨grown,fits⟩ := cdataAdds key
  have sections (after : Bytes) := cdataEnd.splicedSections cdataOpening key after
  refine ⟨cdataEnd.spliced cdataOpening key,fun written => escapeXml core (some written) key,
    cdataEnd.splicedJoin cdataOpening key,cdataEnd.contentsJoin key,sections,?_,by omega,?_,by omega,?_⟩
  · intro after contents tail over_ over' read
    exact sectionsUnique read (sections after) over' over_
  · rw [escapeXml,grown]
    simp
  · intro result encoding either
    rw [Nat.mul_comm 6]
    rcases either with rfl | rfl
    · exact xmlFits core result key (by decide)
    · exact xmlFits core result key (by decide)

example : escapeCdata (some []) 0 (text "a]]]>]]") = .last (text "a]]]]]><![CDATA[>]]") := by decide

end CachePurge
