import CachePurge.Paths

/-! The native cache file: its name, and the bounded reader of its key,
ngx_http_cache_purge_read_key. The header record, CRC32 and MD5 belong to core
and the build; they are parameters. -/
namespace CachePurge

structure CacheHeader where
  version : Nat
  lastModified : Int
  crc32 : UInt32
  headerStart : Nat
  bodyStart : Nat
  etagLen : Nat
  etag : Bytes
  varyLen : Nat
  variant : Bytes
  deriving DecidableEq, Repr

/- What core fixes: the size and layout of ngx_http_file_cache_header_t, the
format version, the capacity of its two text fields, and the checksums. -/
structure Native where
  headerSize : Nat
  header : Bytes → CacheHeader
  version : Nat
  etagLen : Nat
  varyLen : Nat
  crc32 : Bytes → UInt32
  md5 : Bytes → Bytes

def littleEndian (bytes : Bytes) : Nat := bytes.foldr (fun b n => b.toNat + 256 * n) 0

def native64 (crc32 : Bytes → UInt32) (md5 : Bytes → Bytes) : Native where
  headerSize := 336
  header record :=
    let field (offset size : Nat) := littleEndian ((record.drop offset).take size)
    ⟨field 0 8,(BitVec.ofNat 64 (field 32 8)).toInt,(field 48 4).toUInt32,field 54 2,field 56 2,field 58 1,
      (record.drop 59).take 128,field 187 1,(record.drop 316).take 16⟩
  version := 5
  etagLen := 128
  varyLen := 128
  crc32 := crc32
  md5 := md5

def entryKeyMax : Nat := 8192

def keyMarker : Bytes := [10,75,69,89,58,32]

def lineFeed : UInt8 := 10

def isHex (c : UInt8) : Bool := isDigit c || (97 ≤ c && c ≤ 102) || (65 ≤ c && c ≤ 70)

def hexDump (s : Bytes) : Bytes := s.flatMap fun c => hexDigits 2 c.toNat

/- ngx_strncasecmp(a, b, n) == 0, which stops early at a zero byte of both. -/
def caseEqual : Nat → Bytes → Bytes → Bool
  | 0, _, _ => true
  | n + 1, c :: a, d :: b => tolower c == tolower d && (tolower c == 0 || caseEqual n a b)
  | _, _, _ => false

def isCacheFile (platform : Platform) (path : Bytes) : Bool :=
  if path.length < 32 then false
  else
    let start := path.length - 32
    (start == 0 || path[start - 1]?.any platform.separator) && (path.drop start).all isHex

inductive Opened where
  | opened | vanished | failed
  deriving DecidableEq, Repr

structure FileAnswers where
  file : Opened
  info : Bool
  regular : Bool
  header : Bool
  marker : Bool
  key : Bool
  closed : Bool
  deriving DecidableEq, Repr

structure EntryKey where
  header : CacheHeader
  key : Bytes
  fileSize : Nat
  deriving DecidableEq, Repr

def wellRead : FileAnswers := ⟨.opened,true,true,true,true,true,true⟩

section reader
variable (native : Native)

def headerAccepted (h : CacheHeader) (fileSize : Nat) : Bool :=
  let size := native.headerSize + keyMarker.length
  !(h.headerStart < size + 1 || entryKeyMax < h.headerStart - size - 1 || h.bodyStart < h.headerStart ||
    fileSize < h.bodyStart || h.version != native.version || native.etagLen < h.etagLen ||
    native.varyLen < h.varyLen)

def nameAccepted (h : CacheHeader) (key path : Bytes) : Bool :=
  if path.length < 32 then false
  else
    let name := path.drop (path.length - 32)
    caseEqual 32 name (hexDump (native.md5 key)) ||
      (h.varyLen != 0 && caseEqual 32 name (hexDump h.variant))

def readEntry (answers : FileAnswers) (path content : Bytes) : Except Rc EntryKey :=
  if !answers.info then .error .error
  else if !answers.regular then .error .declined
  else if !answers.header then .error .error
  else
    let record := content.take native.headerSize
    if record.length ≠ native.headerSize then .error .declined
    else
      let h := native.header record
      let size := native.headerSize + keyMarker.length
      if !headerAccepted native h content.length then .error .declined
      else if !answers.marker then .error .error
      else if (content.drop native.headerSize).take keyMarker.length ≠ keyMarker then .error .declined
      else
        let len := h.headerStart - size - 1
        if !answers.key then .error .error
        else
          let buffer := (content.drop size).take (len + 1)
          let key := buffer.take len
          if buffer.length ≠ len + 1 || buffer[len]? ≠ some lineFeed || native.crc32 key ≠ h.crc32 then
            .error .declined
          else if !nameAccepted native h key path then .error .declined
          else .ok ⟨h,key,content.length⟩

def readKey (answers : FileAnswers) (path content : Bytes) : Except Rc EntryKey :=
  match answers.file with
  | .vanished => .error .declined
  | .failed => .error .error
  | .opened => if answers.closed then readEntry native answers path content else .error .error

def entryOf (path content : Bytes) : Option EntryKey := (readEntry native wellRead path content).toOption

end reader

def EntryKey.count (entry : EntryKey) (len : Nat) : Nat := min len (entry.key.length + 1)

def EntryKey.buffer (entry : EntryKey) : Bytes := entry.key ++ [lineFeed]

theorem toOptionSome {ε α : Type} {e : Except ε α} {a : α} : e.toOption = some a ↔ e = .ok a := by
  cases e <;> simp [Except.toOption]

variable {native : Native} {answers : FileAnswers} {path content : Bytes} {entry : EntryKey}

section answers
variable {P : Prop} {x y : Except Rc EntryKey}

def Answered (P : Prop) (x y : Except Rc EntryKey) : Prop :=
  x = y ∨ x = .error .error ∨ (P ∧ x = .error .declined)

theorem answeredCall {a : Bool} {e : Except Rc EntryKey} (rest : Answered P x y) :
    Answered P (if !a then .error .error else x) (if !true then e else y) := by
  cases a with
  | false => exact .inr (.inl rfl)
  | true => exact rest

theorem answeredTest {c : Prop} [Decidable c] {e : Except Rc EntryKey} (rest : Answered P x y) :
    Answered P (if c then e else x) (if c then e else y) := by
  split
  · exact .inl rfl
  · exact rest

theorem answeredKind {a : Bool} {e : Except Rc EntryKey} (rest : Answered (a = false) x y) :
    Answered (a = false) (if !a then .error .declined else x) (if !true then e else y) := by
  cases a with
  | false => exact .inr (.inr ⟨rfl,rfl⟩)
  | true => exact rest

theorem readAnswers (native : Native) (answers : FileAnswers) (path content : Bytes) :
    Answered (answers.regular = false) (readEntry native answers path content)
      (readEntry native wellRead path content) := by
  unfold readEntry
  refine answeredCall (answeredKind (answeredCall ?_))
  refine answeredTest (answeredTest (answeredCall (answeredTest (answeredCall ?_))))
  exact answeredTest (answeredTest (.inl rfl))

end answers

theorem readSound (read : readKey native answers path content = .ok entry) :
    entryOf native path content = some entry := by
  unfold readKey at read
  split at read <;> try contradiction
  split at read <;> try contradiction
  rcases readAnswers native answers path content with same | failed | ⟨_,declined⟩
  · rw [entryOf,toOptionSome,← same]
    exact read
  · rw [failed] at read
    contradiction
  · rw [declined] at read
    contradiction

theorem readComplete (formed : entryOf native path content = some entry) (there : answers.file ≠ .vanished)
    (regular : answers.regular = true) :
    readKey native answers path content = .ok entry ∨ readKey native answers path content = .error .error := by
  rw [entryOf,toOptionSome] at formed
  unfold readKey
  cases opened : answers.file with
  | vanished => exact absurd opened there
  | failed => exact .inr rfl
  | opened =>
    simp only
    split
    · rcases readAnswers native answers path content with same | failed | ⟨irregular,_⟩
      · exact .inl (same.trans formed)
      · exact .inr failed
      · rw [regular] at irregular
        contradiction
    · exact .inr rfl

end CachePurge
