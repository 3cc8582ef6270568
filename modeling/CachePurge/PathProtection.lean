import CachePurge.Walk

/-! What ngx_http_cache_purge_is_protected_path decides, by components: a path is
inside a directory when it is the directory, without its trailing separators, or
goes on after it with a separator. -/
namespace CachePurge

/- The three character models a build can have. -/
inductive PathModel where
  | posix | posixCaseless | win32
  deriving DecidableEq, Repr

def PathModel.platform : PathModel → Platform
  | .posix => CachePurge.posix
  | .posixCaseless => CachePurge.posixCaseless
  | .win32 => CachePurge.win32

/- What is left of a directory without its trailing separators; the separator
that ends the root of a volume stays. -/
structure Stripped (platform : Platform) (dir left : Bytes) : Prop where
  rest : ∃ seps, dir = left ++ seps ∧ (∀ c ∈ seps, platform.separator c = true) ∧
    (seps = [] ∨ platform.minLength dir ≤ left.length)
  stops : left.length ≤ platform.minLength dir ∨ left.getLast?.any platform.separator = false

def Alike (platform : Platform) (a b : Bytes) : Prop := a.map platform.char = b.map platform.char

def Inside (platform : Platform) (path dir : Bytes) : Prop :=
  ∃ left front rest, Stripped platform dir left ∧ left ≠ [] ∧ path = front ++ rest ∧ Alike platform front left ∧
    (rest = [] ∨ left.getLast?.any platform.separator = true ∨ rest.head?.any platform.separator = true)

def Protected (conf : WalkConf) (path : Bytes) : Prop :=
  ¬ Inside conf.platform path conf.root ∨
  ∃ name ∈ conf.protection, (∃ root, Stripped conf.platform conf.root root ∧ root.length < name.length) ∧
    Inside conf.platform name conf.root ∧ Inside conf.platform path name

section strip
variable {platform : Platform} {dir : Bytes}

theorem takeOneMore {len : Nat} {c : UInt8} (here : dir[len]? = some c) : dir.take (len + 1) = dir.take len ++ [c] := by
  rw [List.take_add_one,here]
  rfl

theorem stripSeparators (min len : Nat) (within : len ≤ dir.length) :
    (∀ c ∈ (dir.take len).drop (pathStrip platform min dir len), platform.separator c = true) ∧
    (pathStrip platform min dir len = len ∨ min ≤ pathStrip platform min dir len) ∧
    (pathStrip platform min dir len ≤ min ∨
      (dir.take (pathStrip platform min dir len)).getLast?.any platform.separator = false) := by
  induction len with
  | zero => simp [pathStrip]
  | succ len ih =>
    have here : dir[len]? = some dir[len] := List.getElem?_eq_getElem within
    obtain ⟨separators,kept,stops⟩ := ih (Nat.le_of_succ_le within)
    unfold pathStrip
    split
    · rename_i strips
      rw [Bool.and_eq_true,decide_eq_true_eq,here] at strips
      have most := stripAtMost platform min dir len
      refine ⟨?_,?_,stops⟩
      · rw [takeOneMore here,List.drop_append_of_le_length (by rw [List.length_take]; omega)]
        intro c member
        rcases List.mem_append.mp member with earlier | last
        · exact separators c earlier
        · rw [List.mem_singleton.mp last]
          exact strips.2
      · rcases kept with whole | enough
        · right
          omega
        · exact .inr enough
    · rename_i stays
      rw [Bool.and_eq_true,decide_eq_true_eq,here,not_and_or,Nat.not_lt] at stays
      refine ⟨by simp,.inl rfl,stays.imp id fun other => ?_⟩
      rw [takeOneMore here,List.getLast?_concat]
      simpa using other

theorem takeLength : (dir.take (pathLength platform dir)).length = pathLength platform dir := by
  rw [List.length_take]
  exact Nat.min_eq_left (stripAtMost platform (platform.minLength dir) dir dir.length)

theorem strippedTake : Stripped platform dir (dir.take (pathLength platform dir)) := by
  obtain ⟨separators,kept,stops⟩ := @stripSeparators platform dir (platform.minLength dir) dir.length le_rfl
  rw [List.take_length] at separators
  refine ⟨⟨dir.drop (pathLength platform dir),(List.take_append_drop _ _).symm,separators,?_⟩,?_⟩
  · rw [takeLength]
    exact kept.imp (fun whole => by rw [pathLength,whole,List.drop_length]) id
  · rw [takeLength]
    exact stops

theorem strippedShort {a b : Bytes} (left : Stripped platform dir a) (right : Stripped platform dir b) :
    b.length ≤ a.length := by
  by_contra longer
  obtain ⟨seps,split_,separators,kept⟩ := left.rest
  obtain ⟨others,split',_,_⟩ := right.rest
  obtain ⟨more,rfl,shorter⟩ : ∃ more, b = a ++ more ∧ ∃ after, seps = more ++ after := by
    have same := split_.symm.trans split'
    rcases List.append_eq_append_iff.mp same with ⟨more,rfl,after⟩ | ⟨more,rfl,_⟩
    · exact ⟨more,rfl,others,after⟩
    · rw [List.length_append] at longer
      omega
  obtain ⟨after,rfl⟩ := shorter
  rw [List.length_append] at longer
  have some_ : more ≠ [] := by rintro rfl; simp at longer
  have enough := kept.resolve_left (by simp [some_])
  have ends : (a ++ more).getLast?.any platform.separator = true := by
    rw [List.getLast?_append_of_ne_nil _ some_,List.getLast?_eq_some_getLast some_]
    exact separators _ (List.mem_append_left _ (List.getLast_mem some_))
  rcases right.stops with short | other
  · rw [List.length_append] at short
    omega
  · rw [ends] at other
    contradiction

theorem strippedUnique {a b : Bytes} (left : Stripped platform dir a) (right : Stripped platform dir b) : a = b := by
  obtain ⟨seps,split_,_⟩ := left.rest
  obtain ⟨others,split',_⟩ := right.rest
  have same : a.length = b.length := Nat.le_antisymm (strippedShort right left) (strippedShort left right)
  exact (List.append_inj (split_.symm.trans split') same).1

theorem containsInside {path : Bytes} : pathContains platform path dir = true ↔ Inside platform path dir := by
  have most : pathLength platform dir ≤ dir.length := stripAtMost platform (platform.minLength dir) dir dir.length
  have last (some_ : pathLength platform dir ≠ 0) :
      (dir.take (pathLength platform dir)).getLast? = dir[pathLength platform dir - 1]? := by
    rw [List.getLast?_eq_getElem?,takeLength,List.getElem?_take_of_lt (by omega)]
  unfold pathContains
  constructor
  · intro contains
    simp only at contains
    split at contains <;> try contradiction
    rename_i within
    simp only [Bool.or_eq_true,beq_iff_eq,decide_eq_true_eq,Bool.not_eq_true',not_or,not_lt,
      Bool.not_eq_false] at within contains
    obtain ⟨⟨some_,enough⟩,same⟩ := within
    refine ⟨dir.take (pathLength platform dir),path.take (pathLength platform dir),
      path.drop (pathLength platform dir),strippedTake,fun none_ => ?_,(List.take_append_drop _ _).symm,
      beq_iff_eq.mp same,?_⟩
    · have length := @takeLength platform dir
      rw [none_] at length
      exact some_ length.symm
    · rw [last some_,List.head?_drop]
      rcases contains with (whole | rooted) | inner
      · exact .inl (List.drop_of_length_le (Nat.le_of_eq whole))
      · exact .inr (.inl rooted)
      · exact .inr (.inr inner)
  · rintro ⟨left,front,rest,stripped,some_,rfl,alike,goes⟩
    have same := strippedUnique stripped strippedTake
    subst same
    have long : front.length = pathLength platform dir := by
      have lengths := congrArg List.length alike
      rwa [List.length_map,List.length_map,takeLength] at lengths
    have positive : pathLength platform dir ≠ 0 := fun zero => some_ (by rw [zero,List.take_zero])
    have equal : pathEqual platform (front ++ rest) dir (pathLength platform dir) = true := by
      rw [pathEqual,List.take_left' long,beq_iff_eq]
      exact alike
    simp only
    rw [if_neg (by simp [positive,equal,long])]
    rw [last positive] at goes
    simp only [Bool.or_eq_true,beq_iff_eq]
    rcases goes with rfl | rooted | inner
    · exact .inl (.inl (by simpa using long))
    · exact .inl (.inr rooted)
    · right
      rw [← long,List.getElem?_append_right (Nat.le_refl _),Nat.sub_self,← List.head?_eq_getElem?]
      exact inner

theorem protectedIff (conf : WalkConf) (path : Bytes) :
    isProtectedPath conf path = true ↔ Protected conf path := by
  have longer (name : Bytes) : pathLength conf.platform conf.root < name.length ↔
      ∃ root, Stripped conf.platform conf.root root ∧ root.length < name.length := by
    have length : (conf.root.take (pathLength conf.platform conf.root)).length = pathLength conf.platform conf.root := by
      rw [List.length_take]
      exact Nat.min_eq_left (stripAtMost _ _ _ _)
    constructor
    · intro more
      exact ⟨_,strippedTake,by rw [length]; exact more⟩
    · rintro ⟨root,stripped,more⟩
      rwa [strippedUnique stripped strippedTake,length] at more
  unfold isProtectedPath Protected
  simp only [Bool.or_eq_true,Bool.not_eq_true',← Bool.not_eq_true,containsInside,List.any_eq_true,Bool.and_eq_true,
    decide_eq_true_eq,longer,and_assoc]

end strip

structure Platform.Lawful (platform : Platform) : Prop where
  separators : ∀ a b, platform.char a = platform.char b → platform.separator a = platform.separator b
  positive : ∀ dir, 0 < platform.minLength dir
  fits : ∀ dir, dir ≠ [] → platform.minLength dir ≤ dir.length
  roots : ∀ a b, platform.minLength b ≤ a.length → platform.minLength b ≤ b.length →
    Alike platform (a.take (platform.minLength b)) (b.take (platform.minLength b)) →
    platform.minLength b ≤ platform.minLength a

theorem posixLawful : posix.Lawful :=
  ⟨fun _ _ same => congrArg (· == slash) same,fun _ => Nat.one_pos,fun _ some_ => List.length_pos_iff.mpr some_,fun _ _ _ _ _ => le_rfl⟩

theorem tolowerSlash (c : UInt8) : tolower c = slash ↔ c = slash := by
  have all : ∀ n : Fin 256, tolower (UInt8.ofNat n) = slash ↔ UInt8.ofNat n = slash := by decide +kernel
  simpa using all ⟨c.toNat,c.toNat_lt⟩

theorem tolowerColon (c : UInt8) : tolower c = colon ↔ c = colon := by
  have all : ∀ n : Fin 256, tolower (UInt8.ofNat n) = colon ↔ UInt8.ofNat n = colon := by decide +kernel
  simpa using all ⟨c.toNat,c.toNat_lt⟩

theorem caselessLawful : posixCaseless.Lawful := by
  refine ⟨fun a b same => ?_,fun _ => Nat.one_pos,fun _ some_ => List.length_pos_iff.mpr some_,
    fun _ _ _ _ _ => le_rfl⟩
  have equal : a = slash ↔ b = slash := by
    rw [← tolowerSlash a,← tolowerSlash b,show tolower a = tolower b from same]
  change (a == slash) = (b == slash)
  rw [Bool.eq_iff_iff,beq_iff_eq,beq_iff_eq,equal]

theorem win32Char (c : UInt8) : win32.char c = if win32.separator c then slash else tolower c := rfl

theorem win32Separates (c : UInt8) : win32.separator c = true ↔ win32.char c = slash := by
  rw [win32Char]
  cases separates : win32.separator c with
  | true => simp
  | false =>
    simp only [Bool.false_eq_true,if_false,false_iff,tolowerSlash]
    rintro rfl
    contradiction

theorem win32Min (dir : Bytes) : win32.minLength dir = 1 ∨ (win32.minLength dir = 3 ∧
    ∃ first last rest, dir = first :: colon :: last :: rest ∧ win32.separator last = true) := by
  rcases dir with _ | ⟨first,_ | ⟨second,_ | ⟨third,rest⟩⟩⟩
  · exact .inl rfl
  · exact .inl rfl
  · exact .inl rfl
  · have read : win32.minLength (first :: second :: third :: rest) =
        if second == colon && win32.separator third then 3 else 1 := rfl
    rw [read]
    split
    · rename_i root
      rw [Bool.and_eq_true,beq_iff_eq] at root
      obtain ⟨rfl,separates⟩ := root
      exact .inr ⟨rfl,first,third,rest,rfl,separates⟩
    · exact .inl rfl

theorem win32Lawful : win32.Lawful := by
  have positive (dir : Bytes) : 1 ≤ win32.minLength dir := by
    rcases win32Min dir with one | ⟨three,_⟩ <;> omega
  refine ⟨fun a b same => ?_,positive,fun dir some_ => ?_,fun a b long _ alike => ?_⟩
  · rw [Bool.eq_iff_iff,win32Separates,win32Separates,same]
  · rcases win32Min dir with one | ⟨three,first,last,rest,rfl,_⟩
    · rw [one]
      exact List.length_pos_iff.mpr some_
    · rw [three]
      simp
  · rcases win32Min b with one | ⟨three,first,last,rest,rfl,separates⟩
    · rw [one]
      exact positive a
    · rw [three] at long alike ⊢
      rcases a with _ | ⟨first',_ | ⟨second',_ | ⟨third',rest'⟩⟩⟩
      · contradiction
      · simp at long
      · simp at long
      · simp only [Alike,List.take_succ_cons,List.take_zero,List.map_cons,List.map_nil,List.cons.injEq] at alike
        obtain ⟨_,second,third,_⟩ := alike
        have plain : win32.char colon = colon := by decide
        have drive : second' = colon := by
          rw [plain,win32Char] at second
          split at second
          · contradiction
          · exact (tolowerColon second').mp second
        have root : win32.separator third' = true := by
          rw [win32Separates] at separates ⊢
          exact third.trans separates
        have read : win32.minLength (first' :: second' :: third' :: rest') =
            if second' == colon && win32.separator third' then 3 else 1 := rfl
        rw [read,drive,root]
        exact le_rfl

theorem modelLawful (model : PathModel) : model.platform.Lawful := by
  cases model with
  | posix => exact posixLawful
  | posixCaseless => exact caselessLawful
  | win32 => exact win32Lawful

section nested
variable {platform : Platform} {path dir outer : Bytes}

theorem alikeTake {a b : Bytes} (alike : Alike platform a b) (n : Nat) : Alike platform (a.take n) (b.take n) := by
  rw [Alike,List.map_take,List.map_take,show a.map platform.char = b.map platform.char from alike]

theorem alikeAny (lawful : platform.Lawful) {a b : Option UInt8}
    (same : a.map platform.char = b.map platform.char) : a.any platform.separator = b.any platform.separator := by
  cases a with
  | none =>
    cases b with
    | none => rfl
    | some d => contradiction
  | some c =>
    cases b with
    | none => contradiction
    | some d => exact lawful.separators c d (Option.some.inj same)

theorem alikeLast (lawful : platform.Lawful) {a b : Bytes} (alike : Alike platform a b) :
    a.getLast?.any platform.separator = b.getLast?.any platform.separator := by
  have last := congrArg List.getLast? (show a.map platform.char = b.map platform.char from alike)
  rw [List.getLast?_map,List.getLast?_map] at last
  exact alikeAny lawful last

theorem alikeHead (lawful : platform.Lawful) {a b : Bytes} (alike : Alike platform a b) :
    a.head?.any platform.separator = b.head?.any platform.separator := by
  have first := congrArg List.head? (show a.map platform.char = b.map platform.char from alike)
  rw [List.head?_map,List.head?_map] at first
  exact alikeAny lawful first

theorem alikeLength {a b : Bytes} (alike : Alike platform a b) : a.length = b.length := by
  simpa [Alike] using congrArg List.length alike

theorem strippedWithin (lawful : platform.Lawful) {front rest left kept : Bytes} (stripped : Stripped platform outer left)
    (some_ : left ≠ []) (alike : Alike platform front left) (own : Stripped platform (front ++ rest) kept) :
    left.length ≤ kept.length := by
  by_contra shorter
  have long := alikeLength alike
  obtain ⟨seps,split_,separators,enough⟩ := own.rest
  obtain ⟨others,outerSplit,_,outerEnough⟩ := stripped.rest
  obtain ⟨more,rfl,after⟩ : ∃ more, front = kept ++ more ∧ seps = more ++ rest := by
    rcases List.append_eq_append_iff.mp split_ with ⟨more,cut,_⟩ | ⟨more,cut,after⟩
    · have lengths := congrArg List.length cut
      rw [List.length_append] at lengths
      omega
    · exact ⟨more,cut,after⟩
  have dropped : more ≠ [] := by rintro rfl; rw [List.append_nil] at long; omega
  have ends : left.getLast?.any platform.separator = true := by
    rw [← alikeLast lawful alike,List.getLast?_append_of_ne_nil _ dropped,List.getLast?_eq_some_getLast dropped]
    exact separators _ (by rw [after]; exact List.mem_append_left _ (List.getLast_mem dropped))
  have short := stripped.stops.resolve_right (by rw [ends]; exact Bool.noConfusion)
  have nonempty : outer ≠ [] := by rw [outerSplit]; simp [some_]
  have fits := lawful.fits outer nonempty
  have whole : left.length = platform.minLength outer := by
    refine Nat.le_antisymm short ?_
    rcases outerEnough with rfl | enough
    · rwa [outerSplit,List.append_nil] at fits ⊢
    · exact enough
  have roots := lawful.roots (kept ++ more ++ rest) outer (by rw [List.length_append]; omega) fits (by
    rw [← whole,← long,List.take_left,long]
    rwa [outerSplit,List.take_left])
  have last := enough.resolve_left (by rw [after]; simp [dropped])
  omega

theorem insideTrans (lawful : platform.Lawful) (inner : Inside platform path dir) (within : Inside platform dir outer) :
    Inside platform path outer := by
  obtain ⟨left,front,rest,stripped,some_,rfl,alike,goes⟩ := within
  obtain ⟨kept,front',rest',own,_,rfl,alike',goes'⟩ := inner
  have longer := strippedWithin lawful stripped some_ alike own
  have long := alikeLength alike
  obtain ⟨seps,split_,_⟩ := own.rest
  obtain ⟨more,rfl,after⟩ : ∃ more, kept = front ++ more ∧ rest = more ++ seps := by
    rcases List.append_eq_append_iff.mp split_ with ⟨more,cut,after⟩ | ⟨more,cut,after⟩
    · exact ⟨more,cut,after⟩
    · have lengths := congrArg List.length cut
      rw [List.length_append] at lengths
      have none_ : more = [] := List.length_eq_zero_iff.mp (by omega)
      rw [none_,List.append_nil] at cut
      rw [none_,List.nil_append] at after
      exact ⟨[],by rw [cut,List.append_nil],by rw [after,List.nil_append]⟩
  have start := alikeTake alike' front.length
  have tail : Alike platform (front'.drop front.length) more := by
    have dropped := congrArg (List.drop front.length)
      (show front'.map platform.char = (front ++ more).map platform.char from alike')
    rwa [← List.map_drop,← List.map_drop,List.drop_left] at dropped
  rw [List.take_left] at start
  refine ⟨left,front'.take front.length,front'.drop front.length ++ rest',stripped,some_,
    by rw [← List.append_assoc,List.take_append_drop],start.trans alike,?_⟩
  by_cases rooted : left.getLast?.any platform.separator = true
  · exact .inr (.inl rooted)
  cases more with
  | nil =>
    have none_ : front'.drop front.length = [] := List.map_eq_nil_iff.mp tail
    rw [none_,List.nil_append]
    rw [List.append_nil,alikeLast lawful alike] at goes'
    rcases goes' with whole | ends | further
    · exact .inl whole
    · exact absurd ends rooted
    · exact .inr (.inr further)
  | cons c more =>
    rw [after] at goes
    have separates : (c :: more).head?.any platform.separator = true := by
      rcases goes with none_ | ends | further
      · contradiction
      · exact absurd ends rooted
      · exact further
    right
    right
    rw [← alikeHead lawful tail] at separates
    cases here : front'.drop front.length with
    | nil => rw [here] at separates; contradiction
    | cons d rest => rwa [here] at separates

theorem belowInside (lawful : platform.Lawful) (some_ : dir ≠ []) {c : UInt8} (separates : platform.separator c = true)
    (rest : Bytes) : Inside platform (dir ++ c :: rest) dir := by
  have stripped := @strippedTake platform dir
  obtain ⟨seps,split_,separators,enough⟩ := stripped.rest
  refine ⟨_,_,seps ++ c :: rest,stripped,fun none_ => ?_,by rw [← List.append_assoc,← split_],rfl,.inr (.inr ?_)⟩
  · rw [none_] at enough split_
    have positive := lawful.positive dir
    rcases enough with rfl | enough
    · exact some_ split_
    · simp at enough
      omega
  · cases seps with
    | nil => exact separates
    | cons d seps => exact separators d List.mem_cons_self

end nested

/- The answer is the definition by components, in every character model; and from a
protected directory inside the root it passes to every path inside that directory. -/
theorem protectionExact (model : PathModel) (root : Bytes) (protection : List Bytes) :
    let conf : WalkConf := ⟨model.platform,root,protection⟩
    (∀ path, isProtectedPath conf path = true ↔ Protected conf path) ∧
    ∀ dir, Inside model.platform dir root → isProtectedPath conf dir = true →
      (∀ path, Inside model.platform path dir → isProtectedPath conf path = true) ∧
      ∀ c rest, model.platform.separator c = true → isProtectedPath conf (dir ++ c :: rest) = true := by
  intro conf
  have lawful := modelLawful model
  have passes (dir : Bytes) (within : Inside model.platform dir root) (covered : isProtectedPath conf dir = true)
      (path : Bytes) (inner : Inside model.platform path dir) : isProtectedPath conf path = true := by
    rcases (protectedIff conf dir).mp covered with outside | ⟨name,listed,longer,below,holds⟩
    · exact absurd within outside
    · exact (protectedIff conf path).mpr (.inr ⟨name,listed,longer,below,insideTrans lawful inner holds⟩)
  refine ⟨protectedIff conf,fun dir within covered => ⟨passes dir within covered,fun c rest separates => ?_⟩⟩
  refine passes dir within covered _ (belowInside lawful (fun none_ => ?_) separates rest)
  obtain ⟨left,front,tail,_,some_,split_,alike,_⟩ := within
  rw [none_] at split_
  have empty : front = [] := (List.append_eq_nil_iff.mp split_.symm).1
  rw [empty] at alike
  exact some_ (List.map_eq_nil_iff.mp alike.symm)

end CachePurge
