import Mathlib.Data.List.Basic
import Mathlib.Tactic.Basic

/-! A reader of JSON texts given as bytes, with the grammar of the format but for the check that
the text is UTF-8, and what it makes of texts put together from parts: an array or an
object reads as what its items and its members read as. -/
namespace CachePurge.General

inductive Json where
  | null
  | bool (b : Bool)
  | number (digits : List UInt8)
  | string (s : List UInt8)
  | array (items : List Json)
  | object (members : List (List UInt8 × Json))
  deriving Repr

namespace Json

def blank (c : UInt8) : Bool := c == 32 || c == 9 || c == 10 || c == 13

def skip (s : List UInt8) : List UInt8 := s.dropWhile blank

def digit (c : UInt8) : Bool := 48 ≤ c && c ≤ 57

def hexValue (c : UInt8) : Option Nat :=
  if digit c then some (c.toNat - 48)
  else if 65 ≤ c ∧ c ≤ 70 then some (c.toNat - 55)
  else if 97 ≤ c ∧ c ≤ 102 then some (c.toNat - 87)
  else none

def readHex : List UInt8 → Option (Nat × List UInt8)
  | a :: b :: c :: d :: rest => do
    let a ← hexValue a
    let b ← hexValue b
    let c ← hexValue c
    let d ← hexValue d
    some (((a * 16 + b) * 16 + c) * 16 + d,rest)
  | _ => none

/- What follows a backslash and u: one code unit, or the two of a pair of surrogates. -/
def readUnit (s : List UInt8) : Option (List UInt8 × List UInt8) := do
  let (n,rest) ← readHex s
  if 0xd800 ≤ n ∧ n < 0xdc00 then match rest with
    | 92 :: 117 :: rest => do
      let (m,rest) ← readHex rest
      if 0xdc00 ≤ m ∧ m < 0xe000 then
        some (String.utf8EncodeChar (Char.ofNat (0x10000 + (n - 0xd800) * 0x400 + (m - 0xdc00))),rest)
      else none
    | _ => none
  else if 0xdc00 ≤ n ∧ n < 0xe000 then none
  else some (String.utf8EncodeChar (Char.ofNat n),rest)

def unescape (c : UInt8) : Option UInt8 :=
  if c = 34 ∨ c = 92 ∨ c = 47 then some c
  else if c = 98 then some 8
  else if c = 102 then some 12
  else if c = 110 then some 10
  else if c = 114 then some 13
  else if c = 116 then some 9
  else none

def readChar : List UInt8 → Option (List UInt8 × List UInt8)
  | 92 :: 117 :: rest => readUnit rest
  | 92 :: c :: rest => (unescape c).map fun b => ([b],rest)
  | c :: rest => if c < 32 ∨ c = 34 ∨ c = 92 then none else some ([c],rest)
  | [] => none

def readString : Nat → List UInt8 → Option (List UInt8 × List UInt8)
  | 0, _ => none
  | fuel + 1, s =>
    if s.head? = some 34 then some ([],s.drop 1)
    else do
      let (c,rest) ← readChar s
      let (more,rest) ← readString fuel rest
      some (c ++ more,rest)

def readDigits (s : List UInt8) : Option (List UInt8 × List UInt8) :=
  if s.takeWhile digit = [] then none else some (s.takeWhile digit,s.dropWhile digit)

def readInteger : List UInt8 → Option (List UInt8 × List UInt8)
  | 48 :: rest => some ([48],rest)
  | s => readDigits s

def readSign (signs : List UInt8) (s : List UInt8) : List UInt8 × List UInt8 :=
  match s with
  | c :: rest => if c ∈ signs then ([c],rest) else ([],s)
  | [] => ([],[])

def readFraction : List UInt8 → Option (List UInt8 × List UInt8)
  | 46 :: rest => (readDigits rest).map fun read => (46 :: read.1,read.2)
  | s => some ([],s)

def readExponent : List UInt8 → Option (List UInt8 × List UInt8)
  | c :: rest =>
    if c = 101 ∨ c = 69 then
      let sign := readSign [43,45] rest
      (readDigits sign.2).map fun read => (c :: sign.1 ++ read.1,read.2)
    else some ([],c :: rest)
  | [] => some ([],[])

def readNumber (s : List UInt8) : Option (List UInt8 × List UInt8) := do
  let sign := readSign [45] s
  let (integer,s) ← readInteger sign.2
  let (fraction,s) ← readFraction s
  let (exponent,s) ← readExponent s
  some (sign.1 ++ integer ++ fraction ++ exponent,s)

def natural (digits : List UInt8) : Nat := digits.foldl (fun n c => n * 10 + (c.toNat - 48)) 0

def keyword (word : List UInt8) (value : Json) (s : List UInt8) : Option (Json × List UInt8) :=
  if word <+: s then some (value,s.drop word.length) else none

mutual

def readValue : Nat → List UInt8 → Option (Json × List UInt8)
  | 0, _ => none
  | fuel + 1, s => match skip s with
    | 34 :: s => (readString fuel s).map fun read => (.string read.1,read.2)
    | 91 :: s =>
      if (skip s).head? = some 93 then some (.array [],(skip s).drop 1)
      else (readItems fuel s).map fun read => (.array read.1,read.2)
    | 123 :: s =>
      if (skip s).head? = some 125 then some (.object [],(skip s).drop 1)
      else (readMembers fuel s).map fun read => (.object read.1,read.2)
    | 116 :: s => keyword [114,117,101] (.bool true) s
    | 102 :: s => keyword [97,108,115,101] (.bool false) s
    | 110 :: s => keyword [117,108,108] .null s
    | s => (readNumber s).map fun read => (.number read.1,read.2)

def readItems : Nat → List UInt8 → Option (List Json × List UInt8)
  | 0, _ => none
  | fuel + 1, s => do
    let (v,s) ← readValue fuel s
    match skip s with
    | 44 :: s => (readItems fuel s).map fun read => (v :: read.1,read.2)
    | 93 :: s => some ([v],s)
    | _ => none

def readMembers : Nat → List UInt8 → Option (List (List UInt8 × Json) × List UInt8)
  | 0, _ => none
  | fuel + 1, s => match skip s with
    | 34 :: s => do
      let (name,s) ← readString fuel s
      match skip s with
      | 58 :: s => do
        let (v,s) ← readValue fuel s
        match skip s with
        | 44 :: s => (readMembers fuel s).map fun read => ((name,v) :: read.1,read.2)
        | 125 :: s => some ([(name,v)],s)
        | _ => none
      | _ => none
    | _ => none

end

def read (s : List UInt8) : Option Json :=
  match readValue (s.length + 1) s with
  | some (v,rest) => if skip rest = [] then some v else none
  | none => none

def field (name : List UInt8) : Json → Option Json
  | .object members => members.lookup name
  | _ => none

def asBool : Json → Option Bool
  | .bool b => some b
  | _ => none

def asString : Json → Option (List UInt8)
  | .string s => some s
  | _ => none

def asNatural : Json → Option Nat
  | .number digits => some (natural digits)
  | _ => none

def asArray : Json → Option (List Json)
  | .array items => some items
  | _ => none

end Json

namespace Json

section parts

def Stops (rest : List UInt8) : Prop := ∀ c, rest.head? = some c → c = 44 ∨ c = 93 ∨ c = 125

/- A text that is read as this value wherever one may stand. -/
structure Reads (v : Json) (text : List UInt8) : Prop where
  begins : ∃ c rest, text = c :: rest ∧ blank c = false ∧ c ≠ 93
  read : ∀ fuel rest, text.length ≤ fuel → Stops rest → readValue fuel (text ++ rest) = some (v,rest)

theorem skipBegins {c : UInt8} (solid : blank c = false) (rest : List UInt8) : skip (c :: rest) = c :: rest := by
  rw [skip,List.dropWhile_cons,if_neg (by simp [solid])]

theorem stopsCons {c : UInt8} (stop : c = 44 ∨ c = 93 ∨ c = 125) (rest : List UInt8) : Stops (c :: rest) := by
  intro d first
  cases Option.some.inj first
  exact stop

theorem readsWhole {v : Json} {text : List UInt8} (reads : Reads v text) : Json.read text = some v := by
  have whole := reads.read (text.length + 1) [] (Nat.le_succ _) (by simp [Stops])
  rw [List.append_nil] at whole
  rw [Json.read,whole]
  rfl

end parts

section strings

/- A string and its characters as they are written, each by itself. -/
inductive StringOf : List UInt8 → List UInt8 → Prop where
  | nil : StringOf [] []
  | cons {c u s t : List UInt8} (inside : ∃ d v, u = d :: v ∧ d ≠ 34) (char : ∀ rest, readChar (u ++ rest) = some (c,rest))
      (more : StringOf s t) : StringOf (c ++ s) (u ++ t)

theorem readStringOf {s t : List UInt8} (spelled : StringOf s t) :
    ∀ fuel rest, t.length < fuel → readString fuel (t ++ 34 :: rest) = some (s,rest) := by
  induction spelled with
  | nil =>
    intro fuel rest enough
    cases fuel with
    | zero => contradiction
    | succ fuel => rfl
  | @cons c u s t inside char more ih =>
    intro fuel rest enough
    obtain ⟨d,v,rfl,other⟩ := inside
    cases fuel with
    | zero => contradiction
    | succ fuel =>
      rw [List.length_append,List.length_cons] at enough
      rw [readString,if_neg (by simpa using other),List.append_assoc,char]
      change (readString fuel (t ++ 34 :: rest)).bind _ = _
      rw [ih fuel rest (by omega)]
      rfl

def Plain (s : List UInt8) : Prop := ∀ c ∈ s, ¬ (c < 32 ∨ c = 34 ∨ c = 92)

instance (s : List UInt8) : Decidable (Plain s) := List.decidableBAll _ s

theorem readPlain {c : UInt8} (plain : ¬ (c < 32 ∨ c = 34 ∨ c = 92)) (rest : List UInt8) :
    readChar (c :: rest) = some ([c],rest) := by
  have escape : c ≠ 92 := fun same => plain (.inr (.inr same))
  unfold readChar
  split
  · simp_all
  · simp_all
  · rename_i first
    cases first
    rw [if_neg plain]
  · contradiction

theorem plainString {s : List UInt8} (plain : Plain s) : StringOf s s := by
  induction s with
  | nil => exact .nil
  | cons c s ih =>
    have first := plain c List.mem_cons_self
    exact .cons (u := [c]) (c := [c]) ⟨c,[],rfl,fun same => first (.inr (.inl same))⟩ (readPlain first)
      (ih fun d member => plain d (List.mem_cons_of_mem c member))

theorem readHexMore {s t : List UInt8} {n : Nat} (read : readHex s = some (n,t)) (rest : List UInt8) :
    readHex (s ++ rest) = some (n,t ++ rest) := by
  rcases s with _ | ⟨a,_ | ⟨b,_ | ⟨c,_ | ⟨d,s⟩⟩⟩⟩
  · contradiction
  · contradiction
  · contradiction
  · contradiction
  · unfold readHex at read
    simp only [bind,Option.bind_eq_some_iff,Option.some.injEq,Prod.mk.injEq] at read
    obtain ⟨a_,first,b_,second,c_,third,d_,fourth,rfl,rfl⟩ := read
    simp only [List.cons_append,readHex,first,second,third,fourth,bind,Option.bind_some]

theorem readUnitMore {s c t : List UInt8} (read : readUnit s = some (c,t)) (rest : List UInt8) :
    readUnit (s ++ rest) = some (c,t ++ rest) := by
  unfold readUnit at read ⊢
  obtain ⟨⟨n,u⟩,hex,read⟩ := Option.bind_eq_some_iff.mp read
  rw [readHexMore hex rest]
  simp only [bind,Option.bind_some] at read ⊢
  split at read
  · rename_i high
    rw [if_pos high]
    split at read
    · obtain ⟨⟨m,u⟩,low,read⟩ := Option.bind_eq_some_iff.mp read
      simp only [List.cons_append,readHexMore low rest,Option.bind_some] at read ⊢
      split at read
      · rename_i pair
        rw [if_pos pair]
        obtain ⟨rfl,rfl⟩ := Prod.mk.inj (Option.some.inj read)
        rfl
      · contradiction
    · contradiction
  · rename_i other
    rw [if_neg other]
    split at read
    · contradiction
    · rename_i lone
      rw [if_neg lone]
      obtain ⟨rfl,rfl⟩ := Prod.mk.inj (Option.some.inj read)
      rfl

theorem readCharMore {s c t : List UInt8} (read : readChar s = some (c,t)) (rest : List UInt8) :
    readChar (s ++ rest) = some (c,t ++ rest) := by
  unfold readChar at read
  split at read
  · exact readUnitMore read rest
  · rename_i other
    obtain ⟨b,known,same⟩ := Option.map_eq_some_iff.mp read
    obtain ⟨rfl,rfl⟩ := Prod.mk.inj same
    rw [List.cons_append,List.cons_append,readChar,known]
    · rfl
    · exact other
  · split at read
    · contradiction
    · rename_i plain
      obtain ⟨rfl,rfl⟩ := Prod.mk.inj (Option.some.inj read)
      exact readPlain plain _
  · contradiction

theorem spelledString {esc : UInt8 → List UInt8} (inside : ∀ c, ∃ d v, esc c = d :: v ∧ d ≠ 34)
    (char : ∀ c rest, readChar (esc c ++ rest) = some ([c],rest)) (s : List UInt8) : StringOf s (s.flatMap esc) := by
  induction s with
  | nil => exact .nil
  | cons c s ih => exact .cons (inside c) (char c) ih

theorem readsString {s t : List UInt8} (spelled : StringOf s t) : Reads (.string s) (34 :: t ++ [34]) := by
  refine ⟨⟨34,t ++ [34],rfl,rfl,by decide⟩,fun fuel rest enough _ => ?_⟩
  cases fuel with
  | zero => simp at enough
  | succ fuel =>
    simp only [List.length_append,List.length_cons,List.length_nil] at enough
    rw [List.append_assoc,List.cons_append,readValue,skipBegins rfl]
    change (readString fuel (t ++ 34 :: rest)).map _ = _
    rw [readStringOf spelled fuel rest (by omega)]
    rfl

end strings

section numbers

theorem readDigitsBefore {digits : List UInt8} (some_ : digits ≠ []) (all : ∀ c ∈ digits, digit c = true) {rest : List UInt8}
    (stop : ∀ c, rest.head? = some c → digit c = false) : readDigits (digits ++ rest) = some (digits,rest) := by
  have taken : (digits ++ rest).takeWhile digit = digits := by
    rw [List.takeWhile_append_of_pos all]
    cases rest with
    | nil => simp
    | cons c rest => rw [List.takeWhile_cons,stop c rfl]; simp
  have dropped : (digits ++ rest).dropWhile digit = rest := by
    rw [List.dropWhile_append_of_pos all]
    cases rest with
    | nil => rfl
    | cons c rest => rw [List.dropWhile_cons,stop c rfl]; simp
  rw [readDigits,taken,dropped,if_neg some_]

/- A whole number, with what may stand around it. -/
inductive Numeral : List UInt8 → Prop where
  | mk {sign integer fraction : List UInt8} (signed : sign = [] ∨ sign = [45])
      (whole : integer = [48] ∨ ∃ c digits, integer = c :: digits ∧ c ≠ 48 ∧ ∀ d ∈ integer, digit d = true)
      (fractional : fraction = [] ∨ ∃ digits, fraction = 46 :: digits ∧ digits ≠ [] ∧ ∀ d ∈ digits, digit d = true) :
      Numeral (sign ++ integer ++ fraction)

theorem stopsDigit {rest : List UInt8} (stops : Stops rest) : ∀ c, rest.head? = some c → digit c = false := by
  intro c first
  rcases stops c first with rfl | rfl | rfl <;> decide

theorem readIntegerBefore {integer : List UInt8}
    (whole : integer = [48] ∨ ∃ c digits, integer = c :: digits ∧ c ≠ 48 ∧ ∀ d ∈ integer, digit d = true) {rest : List UInt8}
    (stop : ∀ c, rest.head? = some c → digit c = false) : readInteger (integer ++ rest) = some (integer,rest) := by
  rcases whole with rfl | ⟨c,digits,rfl,other,all⟩
  · rfl
  · have read := readDigitsBefore (by simp) all stop
    unfold readInteger
    split
    · rename_i same
      exact absurd (List.cons.inj same).1 other
    · exact read

theorem readFractionBefore {fraction : List UInt8}
    (fractional : fraction = [] ∨ ∃ digits, fraction = 46 :: digits ∧ digits ≠ [] ∧ ∀ d ∈ digits, digit d = true)
    {rest : List UInt8} (stops : Stops rest) : readFraction (fraction ++ rest) = some (fraction,rest) := by
  rcases fractional with rfl | ⟨digits,rfl,some_,all⟩
  · rw [List.nil_append]
    unfold readFraction
    split
    · rcases stops 46 rfl with h | h | h <;> contradiction
    · rfl
  · rw [List.cons_append,readFraction,readDigitsBefore some_ all (stopsDigit stops)]
    rfl

theorem readExponentBefore {rest : List UInt8} (stops : Stops rest) : readExponent rest = some ([],rest) := by
  cases rest with
  | nil => rfl
  | cons c rest =>
    rw [readExponent,if_neg]
    rcases stops c rfl with rfl | rfl | rfl <;> decide

theorem readValueNumber {c : UInt8} (first : digit c = true ∨ c = 45) (fuel : Nat) (rest : List UInt8) :
    readValue (fuel + 1) (c :: rest) = (readNumber (c :: rest)).map fun read => (.number read.1,read.2) := by
  have solid : blank c = false := by
    rcases first with isDigit | rfl
    · simp only [digit,Bool.and_eq_true,decide_eq_true_eq] at isDigit
      simp only [blank,Bool.or_eq_false_iff,beq_eq_false_iff_ne]
      refine ⟨⟨⟨?_,?_⟩,?_⟩,?_⟩ <;> rintro rfl <;> revert isDigit <;> decide
    · rfl
  have other (d : UInt8) (no : digit d = false) (minus : d ≠ 45) : c ≠ d := by
    rintro rfl
    rcases first with isDigit | same
    · exact Bool.noConfusion (isDigit.symm.trans no)
    · exact minus same
  rw [readValue,skipBegins solid]
  split
  · exact absurd (List.cons.inj ‹_›).1 (other 34 rfl (by decide))
  · exact absurd (List.cons.inj ‹_›).1 (other 91 rfl (by decide))
  · exact absurd (List.cons.inj ‹_›).1 (other 123 rfl (by decide))
  · exact absurd (List.cons.inj ‹_›).1 (other 116 rfl (by decide))
  · exact absurd (List.cons.inj ‹_›).1 (other 102 rfl (by decide))
  · exact absurd (List.cons.inj ‹_›).1 (other 110 rfl (by decide))
  · rfl

theorem readsNumber {t : List UInt8} (numeral : Numeral t) : Reads (.number t) t := by
  obtain ⟨signed,whole,fractional⟩ := numeral
  rename_i sign integer fraction
  obtain ⟨c,digits,first,isDigit⟩ : ∃ c digits, integer = c :: digits ∧ digit c = true := by
    rcases whole with rfl | ⟨c,digits,rfl,_,all⟩
    · exact ⟨48,[],rfl,rfl⟩
    · exact ⟨c,digits,rfl,all c List.mem_cons_self⟩
  have unsigned : c ≠ 45 := by
    rintro rfl
    contradiction
  have number (rest : List UInt8) (stops : Stops rest) : readNumber (sign ++ integer ++ fraction ++ rest) =
      some (sign ++ integer ++ fraction,rest) := by
    have signRead : readSign [45] (sign ++ (integer ++ (fraction ++ rest))) = (sign,integer ++ (fraction ++ rest)) := by
      rcases signed with rfl | rfl
      · rw [List.nil_append,first,List.cons_append,readSign,if_neg (by simpa using unsigned)]
      · rfl
    have point : ∀ d, (fraction ++ rest).head? = some d → digit d = false := by
      rcases fractional with rfl | ⟨_,rfl,_⟩
      · exact stopsDigit stops
      · intro d here
        cases Option.some.inj here
        rfl
    rw [readNumber,List.append_assoc,List.append_assoc,signRead,List.append_assoc]
    simp only [readIntegerBefore whole point,readFractionBefore fractional stops,readExponentBefore stops,bind,
      Option.bind_some,List.append_nil,List.append_assoc]
  obtain ⟨d,more,begins,lead⟩ : ∃ d more, sign ++ integer ++ fraction = d :: more ∧ (digit d = true ∨ d = 45) := by
    rcases signed with rfl | rfl
    · exact ⟨c,digits ++ fraction,by rw [first]; rfl,.inl isDigit⟩
    · exact ⟨45,integer ++ fraction,rfl,.inr rfl⟩
  refine ⟨⟨d,more,begins,?_⟩,fun fuel rest enough stops => ?_⟩
  · rcases lead with isDigit | rfl
    · constructor
      · simp only [digit,Bool.and_eq_true,decide_eq_true_eq] at isDigit
        simp only [blank,Bool.or_eq_false_iff,beq_eq_false_iff_ne]
        refine ⟨⟨⟨?_,?_⟩,?_⟩,?_⟩ <;> rintro rfl <;> revert isDigit <;> decide
      · rintro rfl
        contradiction
    · decide
  · cases fuel with
    | zero => simp [begins] at enough
    | succ fuel =>
      have whole := number rest stops
      rw [begins,List.cons_append] at whole ⊢
      rw [readValueNumber lead,whole]
      rfl

end numbers

section nested

def commas : List (List UInt8) → List UInt8
  | [] => []
  | [t] => t
  | t :: u :: rest => t ++ 44 :: commas (u :: rest)

theorem commasCons (t : List UInt8) (rest : List (List UInt8)) : commas (t :: rest) = t ++ rest.flatMap (44 :: ·) := by
  induction rest generalizing t with
  | nil => simp [commas]
  | cons u rest ih => rw [commas,ih,List.flatMap_cons,List.cons_append]

theorem readsBool (b : Bool) : Reads (.bool b) (if b then [116,114,117,101] else [102,97,108,115,101]) := by
  cases b
  · refine ⟨⟨102,_,rfl,rfl,by decide⟩,fun fuel rest enough _ => ?_⟩
    cases fuel with
    | zero => simp at enough
    | succ fuel =>
      change readValue (fuel + 1) (102 :: 97 :: 108 :: 115 :: 101 :: rest) = _
      rw [readValue,skipBegins rfl]
      simp [keyword]
  · refine ⟨⟨116,_,rfl,rfl,by decide⟩,fun fuel rest enough _ => ?_⟩
    cases fuel with
    | zero => simp at enough
    | succ fuel =>
      change readValue (fuel + 1) (116 :: 114 :: 117 :: 101 :: rest) = _
      rw [readValue,skipBegins rfl]
      simp [keyword]

theorem readItemsCommas {parts : List (Json × List UInt8)} (each : ∀ p ∈ parts, Reads p.1 p.2) (some_ : parts ≠ []) :
    ∀ fuel rest, (commas (parts.map Prod.snd)).length < fuel →
      readItems fuel (commas (parts.map Prod.snd) ++ 93 :: rest) = some (parts.map Prod.fst,rest) := by
  induction parts with
  | nil => contradiction
  | cons p parts ih =>
    intro fuel rest enough
    have first := each p List.mem_cons_self
    cases fuel with
    | zero => contradiction
    | succ fuel =>
      cases parts with
      | nil =>
        simp only [List.map_cons,List.map_nil,commas] at enough ⊢
        rw [readItems,first.read fuel (93 :: rest) (by omega) (stopsCons (by simp) rest)]
        simp [skipBegins (show blank 93 = false from rfl)]
      | cons p' parts =>
        have later := ih (fun q member => each q (List.mem_cons_of_mem p member)) (by simp) fuel rest
        simp only [List.map_cons,commas,List.length_append,List.length_cons] at enough later ⊢
        rw [List.append_assoc,List.cons_append,readItems,first.read fuel _ (by omega) (stopsCons (by simp) _)]
        simp [skipBegins (show blank 44 = false from rfl),later (by omega)]

theorem readsArray {parts : List (Json × List UInt8)} (each : ∀ p ∈ parts, Reads p.1 p.2) :
    Reads (.array (parts.map Prod.fst)) (91 :: commas (parts.map Prod.snd) ++ [93]) := by
  refine ⟨⟨91,_,rfl,rfl,by decide⟩,fun fuel rest enough _ => ?_⟩
  simp only [List.cons_append,List.length_cons,List.length_append,List.length_nil] at enough ⊢
  cases fuel with
  | zero => simp at enough
  | succ fuel =>
    rw [readValue,skipBegins rfl,List.append_assoc]
    cases parts with
    | nil => simp [commas,skipBegins (show blank 93 = false from rfl)]
    | cons p parts =>
      have items := readItemsCommas each (by simp) fuel rest (by omega)
      obtain ⟨c,more,begins,solid,other⟩ := (each p List.mem_cons_self).begins
      have front : ∃ more, commas ((p :: parts).map Prod.snd) = c :: more := by
        cases parts with
        | nil => exact ⟨more,begins⟩
        | cons p' parts => exact ⟨more ++ 44 :: commas ((p' :: parts).map Prod.snd),by rw [List.map_cons,List.map_cons,commas,begins]; rfl⟩
      obtain ⟨more,front⟩ := front
      rw [List.singleton_append]
      refine (if_neg ?_).trans (by rw [items]; rfl)
      rw [front,List.cons_append,skipBegins solid]
      simpa using other

def member (name text : List UInt8) : List UInt8 := 34 :: name ++ 34 :: 58 :: text

@[simp] theorem memberLength (name text : List UInt8) : (member name text).length = name.length + text.length + 3 := by
  simp only [member,List.cons_append,List.length_cons,List.length_append]
  omega

theorem readMembersCommas {parts : List (List UInt8 × Json × List UInt8)} (names : ∀ p ∈ parts, Plain p.1)
    (each : ∀ p ∈ parts, Reads p.2.1 p.2.2) (some_ : parts ≠ []) :
    ∀ fuel rest, (commas (parts.map fun p => member p.1 p.2.2)).length < fuel →
      readMembers fuel (commas (parts.map fun p => member p.1 p.2.2) ++ 125 :: rest) =
        some (parts.map fun p => (p.1,p.2.1),rest) := by
  induction parts with
  | nil => contradiction
  | cons p parts ih =>
    intro fuel rest enough
    have first := each p List.mem_cons_self
    have name := readStringOf (plainString (names p List.mem_cons_self))
    cases fuel with
    | zero => contradiction
    | succ fuel =>
      cases parts with
      | nil =>
        simp only [List.map_cons,List.map_nil,commas,memberLength] at enough ⊢
        rw [member,List.cons_append,List.cons_append,readMembers,skipBegins rfl,List.append_assoc]
        simp only [List.cons_append,name fuel _ (show p.1.length < fuel by omega),bind,Option.bind_some,
          skipBegins (show blank 58 = false from rfl)]
        rw [first.read fuel (125 :: rest) (by omega) (stopsCons (by simp) rest)]
        simp [skipBegins (show blank 125 = false from rfl)]
      | cons p' parts =>
        have later := ih (fun q member => names q (List.mem_cons_of_mem p member))
          (fun q member => each q (List.mem_cons_of_mem p member)) (by simp) fuel rest
        simp only [List.map_cons,commas,List.length_append,List.length_cons,memberLength] at enough later ⊢
        rw [List.append_assoc,member,List.cons_append,List.cons_append,readMembers,skipBegins rfl,List.append_assoc]
        simp only [List.cons_append,name fuel _ (show p.1.length < fuel by omega),bind,Option.bind_some,
          skipBegins (show blank 58 = false from rfl)]
        rw [first.read fuel _ (by omega) (stopsCons (by simp) _)]
        simp [skipBegins (show blank 44 = false from rfl),later (by omega)]

theorem readsObject {parts : List (List UInt8 × Json × List UInt8)} (names : ∀ p ∈ parts, Plain p.1)
    (each : ∀ p ∈ parts, Reads p.2.1 p.2.2) : Reads (.object (parts.map fun p => (p.1,p.2.1)))
      (123 :: commas (parts.map fun p => member p.1 p.2.2) ++ [125]) := by
  refine ⟨⟨123,_,rfl,rfl,by decide⟩,fun fuel rest enough _ => ?_⟩
  simp only [List.cons_append,List.length_cons,List.length_append,List.length_nil] at enough ⊢
  cases fuel with
  | zero => simp at enough
  | succ fuel =>
    rw [readValue,skipBegins rfl,List.append_assoc]
    cases parts with
    | nil => simp [commas,skipBegins (show blank 125 = false from rfl)]
    | cons p parts =>
      have members := readMembersCommas names each (by simp) fuel rest (by omega)
      have front : ∃ more, commas ((p :: parts).map fun p => member p.1 p.2.2) = 34 :: more := by
        cases parts <;> exact ⟨_,rfl⟩
      obtain ⟨more,front⟩ := front
      rw [List.singleton_append]
      refine (if_neg ?_).trans (by rw [members]; rfl)
      rw [front,List.cons_append,skipBegins rfl]
      simp

end nested

end Json

end CachePurge.General
