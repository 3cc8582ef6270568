import CachePurge.Bytes

/-! Path comparison as the platform headers define it: which byte separates
components, which bytes are compared as equal, and how many leading bytes
belong to the root of a volume and are never stripped. -/
namespace CachePurge

structure Platform where
  separator : UInt8 → Bool
  char : UInt8 → UInt8
  minLength : Bytes → Nat
  slashSeparates : separator slash = true

def backslash : UInt8 := 92

def posix : Platform := ⟨(· == slash),id,fun _ => 1,by decide⟩

/- NGX_HAVE_CASELESS_FILESYSTEM -/
def posixCaseless : Platform := {posix with char := tolower}

def win32 : Platform where
  separator c := c == slash || c == backslash
  char c := if c == slash || c == backslash then slash else tolower c
  minLength path := match path with
    | _ :: second :: third :: _ =>
      if second == colon && (third == slash || third == backslash) then 3 else 1
    | _ => 1
  slashSeparates := by decide

variable (platform : Platform)

def pathEqual (a b : Bytes) (len : Nat) : Bool :=
  (a.take len).map platform.char == (b.take len).map platform.char

def pathStrip (min : Nat) (path : Bytes) : Nat → Nat
  | 0 => 0
  | len + 1 => if min < len + 1 && (path[len]?.any platform.separator) then pathStrip min path len
      else len + 1

def pathLength (path : Bytes) : Nat := pathStrip platform (platform.minLength path) path path.length

def pathContains (path root : Bytes) : Bool :=
  let len := pathLength platform root
  if len == 0 || path.length < len || !pathEqual platform path root len then false
  else path.length == len || (root[len - 1]?.any platform.separator) ||
    (path[len]?.any platform.separator)

def Below (dir path : Bytes) : Prop := ∃ rest, path = dir ++ slash :: rest

theorem belowTrans {a b c : Bytes} (left : Below a b) (right : Below b c) : Below a c := by
  obtain ⟨x,rfl⟩ := left
  obtain ⟨y,rfl⟩ := right
  exact ⟨x ++ slash :: y,by simp⟩

theorem stripAtMost (min : Nat) (path : Bytes) (len : Nat) : pathStrip platform min path len ≤ len := by
  induction len with
  | zero => exact le_rfl
  | succ len ih =>
    unfold pathStrip
    split
    · exact ih.trans (Nat.le_succ len)
    · exact le_rfl

theorem stripStops (min : Nat) (path : Bytes) (len : Nat) : pathStrip platform min path len = len ∨
    path[pathStrip platform min path len]?.any platform.separator = true := by
  induction len with
  | zero => exact .inl rfl
  | succ len ih =>
    unfold pathStrip
    split
    · rename_i stripped
      simp only [Bool.and_eq_true] at stripped
      rcases ih with whole | stops
      · rw [whole]
        exact .inr stripped.2
      · exact .inr stops
    · exact .inl rfl

theorem containsBelow {dir path root : Bytes} (contains : pathContains platform dir root = true)
    (below : Below dir path) : pathContains platform path root = true := by
  obtain ⟨rest,rfl⟩ := below
  unfold pathContains at contains ⊢
  generalize pathLength platform root = len at contains ⊢
  simp only at contains ⊢
  split at contains <;> try contradiction
  rename_i inside
  simp only [Bool.or_eq_true,beq_iff_eq,decide_eq_true_eq,Bool.not_eq_true',not_or,not_lt] at inside
  obtain ⟨⟨nonzero,enough⟩,equal⟩ := inside
  have same : (dir ++ slash :: rest).take len = dir.take len := List.take_append_of_le_length enough
  have equal' : pathEqual platform (dir ++ slash :: rest) root len = true := by
    simpa [pathEqual,same] using equal
  rw [if_neg (by simp [nonzero,equal']; omega)]
  simp only [Bool.or_eq_true,beq_iff_eq] at contains ⊢
  rcases contains with (whole | rooted) | inner
  · right
    rw [← whole,List.getElem?_append_right le_rfl]
    simp [platform.slashSeparates]
  · exact .inl (.inr rooted)
  · right
    have short : len < dir.length := by
      by_contra long
      rw [List.getElem?_eq_none (by omega)] at inner
      contradiction
    rw [List.getElem?_append_left short]
    exact inner

theorem rootContains {root path : Bytes} (named : pathLength platform root ≠ 0)
    (within : path = root ∨ Below root path) : pathContains platform path root = true := by
  have whole : pathContains platform root root = true := by
    unfold pathContains
    have most := stripAtMost platform (platform.minLength root) root root.length
    have stops := stripStops platform (platform.minLength root) root root.length
    change pathLength platform root ≤ root.length at most
    change pathLength platform root = root.length ∨ root[pathLength platform root]?.any platform.separator = true at stops
    simp only
    rw [if_neg (by simp [named,pathEqual]; omega)]
    rcases stops with full | stops
    · simp [full]
    · simp [stops]
  rcases within with rfl | below
  · exact whole
  · exact containsBelow platform whole below

end CachePurge
