import CachePurge.Selectors

/-! ngx_http_cache_purge_read_key with all it leaves in its context, against the
native file format: the reader accepts the files written in that layout under
their names, and no others. -/
namespace CachePurge

def ngxError : Int := -1
def ngxDeclined : Int := -5

/- The fields of the walk's context that the reader writes. -/
structure ReadContext where
  record : Bytes
  keyBuffer : Bytes
  entryKeyLen : Nat
  fileSize : Nat
  deriving DecidableEq, Repr

section reader
variable (native : Native) (answers : FileAnswers) (path content : Bytes) (len : Nat)

def readOpened (ctx : ReadContext) : Int × ReadContext :=
  if !answers.info then (ngxError,ctx)
  else if !answers.regular then (ngxDeclined,ctx)
  else if !answers.header then (ngxError,ctx)
  else
    let got := content.take native.headerSize
    let ctx := {ctx with record := overwrite ctx.record 0 got}
    if got.length ≠ native.headerSize then (ngxDeclined,ctx)
    else
      let h := native.header (ctx.record.take native.headerSize)
      let size := native.headerSize + keyMarker.length
      if !headerAccepted native h content.length then (ngxDeclined,ctx)
      else if !answers.marker then (ngxError,ctx)
      else if (content.drop native.headerSize).take keyMarker.length ≠ keyMarker then (ngxDeclined,ctx)
      else
        let ctx := {ctx with entryKeyLen := h.headerStart - size - 1}
        if !answers.key then (ngxError,ctx)
        else
          let got := (content.drop size).take (ctx.entryKeyLen + 1)
          let ctx := {ctx with keyBuffer := overwrite ctx.keyBuffer 0 got}
          let key := ctx.keyBuffer.take ctx.entryKeyLen
          if got.length ≠ ctx.entryKeyLen + 1 || ctx.keyBuffer[ctx.entryKeyLen]? ≠ some lineFeed ||
              native.crc32 key ≠ h.crc32 then (ngxDeclined,ctx)
          else if !nameAccepted native h key path then (ngxDeclined,ctx)
          else ((min len (ctx.entryKeyLen + 1) : Nat),{ctx with fileSize := content.length})

def readInto (ctx : ReadContext) : Int × ReadContext :=
  let ctx := {ctx with entryKeyLen := 0}
  match answers.file with
  | .vanished => (ngxDeclined,ctx)
  | .failed => (ngxError,ctx)
  | .opened =>
    let opened := readOpened native answers path content len ctx
    let result := if answers.closed then opened.1 else ngxError
    (result,if result < 0 then {opened.2 with entryKeyLen := 0} else opened.2)

end reader

def hexName (digest : Bytes) : Bytes := (hexDump digest).take 32

/- What the header says of a file of this size with a key of this length. -/
structure HeaderFits (native : Native) (h : CacheHeader) (keyLen fileSize : Nat) : Prop where
  version : h.version = native.version
  headerStart : h.headerStart = native.headerSize + keyMarker.length + keyLen + 1
  bodyStart : h.headerStart ≤ h.bodyStart
  body : h.bodyStart ≤ fileSize
  etag : h.etagLen ≤ native.etagLen
  vary : h.varyLen ≤ native.varyLen
  short : keyLen ≤ entryKeyMax

def NameFits (native : Native) (h : CacheHeader) (key path : Bytes) : Prop :=
  32 ≤ path.length ∧ (lowered (path.drop (path.length - 32)) = lowered (hexName (native.md5 key)) ∨
    (h.varyLen ≠ 0 ∧ lowered (path.drop (path.length - 32)) = lowered (hexName h.variant)))

structure NativeEntry (native : Native) (path content key : Bytes) : Prop where
  whole : native.headerSize ≤ content.length
  header : HeaderFits native (native.header (content.take native.headerSize)) key.length content.length
  layout : keyMarker ++ key ++ [lineFeed] <+: content.drop native.headerSize
  checksum : native.crc32 key = (native.header (content.take native.headerSize)).crc32
  named : NameFits native (native.header (content.take native.headerSize)) key path

def fileWritten (record key body : Bytes) : Bytes := record ++ (keyMarker ++ key ++ [lineFeed] ++ body)

theorem writtenEntry {native : Native} {path record key body : Bytes} (sized : record.length = native.headerSize)
    (header : HeaderFits native (native.header record) key.length (fileWritten record key body).length)
    (checksum : native.crc32 key = (native.header record).crc32)
    (named : NameFits native (native.header record) key path) :
    NativeEntry native path (fileWritten record key body) key := by
  have taken : (fileWritten record key body).take native.headerSize = record := List.take_left' sized
  have left : (fileWritten record key body).drop native.headerSize = keyMarker ++ key ++ [lineFeed] ++ body :=
    List.drop_left' sized
  refine ⟨by rw [fileWritten,List.length_append]; omega,?_,?_,?_,?_⟩
  · rwa [taken]
  · rw [left]
    exact List.prefix_append _ body
  · rwa [taken]
  · rwa [taken]

section format
variable {native : Native} {path content key : Bytes}

theorem hexDigitsText (width v : Nat) : 0 ∉ hexDigits width v := by
  have digit (d : Nat) (small : d < 16) : hexChar d ≠ 0 := by
    interval_cases d <;> decide
  induction width generalizing v with
  | zero => exact List.not_mem_nil
  | succ width ih =>
    rw [hexDigits,List.mem_append,List.mem_singleton,not_or]
    exact ⟨ih (v / 16),(digit (v % 16) (Nat.mod_lt v (by decide))).symm⟩

theorem hexDumpText (digest : Bytes) : 0 ∉ hexDump digest := by
  intro zero
  obtain ⟨c,_,inside⟩ := List.mem_flatMap.mp zero
  exact hexDigitsText 2 c.toNat inside

theorem textCompared {n : Nat} {a b : Bytes} (long : a.length = n) (plain : 0 ∉ b) :
    caseEqual n a b = true ↔ lowered a = lowered (b.take n) := by
  induction n generalizing a b with
  | zero =>
    rw [List.length_eq_zero_iff.mp long]
    simp [caseEqual,lowered]
  | succ n ih =>
    cases a with
    | nil => contradiction
    | cons c a =>
      cases b with
      | nil => simp [caseEqual,lowered]
      | cons d b =>
        simp only [List.mem_cons,not_or] at plain
        have rest := ih (Nat.succ.inj long) plain.2
        have nonzero : tolower d ≠ 0 := fun zero => plain.1 (tolowerZero.mp zero).symm
        simp only [caseEqual,Bool.and_eq_true,Bool.or_eq_true,beq_iff_eq,rest,List.take_succ_cons,lowered,
          List.map_cons,List.cons.injEq]
        constructor
        · rintro ⟨same,zero | equal⟩
          · exact absurd (same.symm.trans zero) nonzero
          · exact ⟨same,equal⟩
        · rintro ⟨same,equal⟩
          exact ⟨same,.inr equal⟩

theorem nameAcceptedIff (h : CacheHeader) : nameAccepted native h key path = true ↔ NameFits native h key path := by
  unfold nameAccepted NameFits hexName
  split
  · rename_i short
    simp
    omega
  · rename_i enough
    have long : (path.drop (path.length - 32)).length = 32 := by rw [List.length_drop]; omega
    simp only [Bool.or_eq_true,Bool.and_eq_true,bne_iff_ne,textCompared long (hexDumpText _)]
    exact ⟨fun same => ⟨by omega,same⟩,fun same => same.2⟩

theorem headerAcceptedIff (h : CacheHeader) (fileSize : Nat) : headerAccepted native h fileSize = true ↔
    ∃ keyLen, h.headerStart - (native.headerSize + keyMarker.length) - 1 = keyLen ∧
      HeaderFits native h keyLen fileSize := by
  have checks : headerAccepted native h fileSize = true ↔ native.headerSize + keyMarker.length + 1 ≤ h.headerStart ∧
      h.headerStart - (native.headerSize + keyMarker.length) - 1 ≤ entryKeyMax ∧ h.headerStart ≤ h.bodyStart ∧
      h.bodyStart ≤ fileSize ∧ h.version = native.version ∧ h.etagLen ≤ native.etagLen ∧
      h.varyLen ≤ native.varyLen := by
    simp [headerAccepted,and_assoc]
  rw [checks]
  constructor
  · rintro ⟨start,short,bodyStart,body,version,etag,vary⟩
    exact ⟨_,rfl,version,by omega,bodyStart,body,etag,vary,short⟩
  · rintro ⟨_,rfl,fits⟩
    have start := fits.headerStart
    exact ⟨by omega,fits.short,fits.bodyStart,fits.body,fits.version,fits.etag,fits.vary⟩

theorem markedLayout {tail : Bytes} {size : Nat} :
    (tail.take keyMarker.length = keyMarker ∧
      ((tail.drop keyMarker.length).take (size + 1)).length = size + 1 ∧
      ((tail.drop keyMarker.length).take (size + 1))[size]? = some lineFeed ∧
      ((tail.drop keyMarker.length).take (size + 1)).take size = key) ↔
    key.length = size ∧ keyMarker ++ key ++ [lineFeed] <+: tail := by
  constructor
  · rintro ⟨marker,full,newline,rfl⟩
    have whole : ((tail.drop keyMarker.length).take (size + 1)).take (size + 1) =
        ((tail.drop keyMarker.length).take (size + 1)).take size ++ [lineFeed] := by
      rw [List.take_add_one,newline]
      rfl
    rw [List.take_of_length_le (Nat.le_of_eq full)] at whole
    refine ⟨by rw [List.length_take,full]; omega,(tail.drop keyMarker.length).drop (size + 1),?_⟩
    rw [List.append_assoc keyMarker,← whole,List.append_assoc,List.take_append_drop]
    nth_rewrite 1 [← marker]
    exact List.take_append_drop _ _
  · rintro ⟨rfl,rest,rfl⟩
    have first : (keyMarker ++ key ++ [lineFeed] ++ rest).take keyMarker.length = keyMarker := by simp
    have second : (keyMarker ++ key ++ [lineFeed] ++ rest).drop keyMarker.length = key ++ [lineFeed] ++ rest := by
      simp
    have third : (key ++ [lineFeed] ++ rest).take (key.length + 1) = key ++ [lineFeed] :=
      List.take_left' (by simp)
    rw [first,second,third]
    simp

theorem testPassed {c : Prop} [Decidable c] {rc : Rc} {x : Except Rc EntryKey} {entry : EntryKey}
    (read : (if c then .error rc else x) = .ok entry) : ¬ c ∧ x = .ok entry := by
  split at read
  · contradiction
  · rename_i passed
    exact ⟨passed,read⟩

theorem entryIff {entry : EntryKey} : readEntry native wellRead path content = .ok entry ↔
    NativeEntry native path content entry.key ∧ entry.fileSize = content.length ∧
    entry.header = native.header (content.take native.headerSize) := by
  have second (size : Nat) : (content.drop (native.headerSize + keyMarker.length)).take size =
      ((content.drop native.headerSize).drop keyMarker.length).take size := by rw [List.drop_drop]
  constructor
  · intro read
    simp only [readEntry,wellRead,Bool.not_true,Bool.false_eq_true,if_false,second] at read
    obtain ⟨full,read⟩ := testPassed read
    obtain ⟨accepted,read⟩ := testPassed read
    obtain ⟨marker,read⟩ := testPassed read
    obtain ⟨found,read⟩ := testPassed read
    obtain ⟨named,read⟩ := testPassed read
    cases Except.ok.inj read
    have long : native.headerSize ≤ content.length := by rw [List.length_take] at full; omega
    obtain ⟨_,rfl,fits⟩ := (headerAcceptedIff _ _).mp (by simpa using accepted)
    simp only [Bool.or_eq_true,decide_eq_true_eq,not_or,not_not] at marker found
    obtain ⟨length,layout⟩ := markedLayout.mp ⟨marker,found.1.1,found.1.2,rfl⟩
    exact ⟨⟨long,by rw [length]; exact fits,layout,found.2,(nameAcceptedIff _).mp (by simpa using named)⟩,rfl,rfl⟩
  · rintro ⟨formed,size,header⟩
    have start := formed.header.headerStart
    have lengths : (native.header (content.take native.headerSize)).headerStart -
        (native.headerSize + keyMarker.length) - 1 = entry.key.length := by omega
    have full : (content.take native.headerSize).length = native.headerSize := by
      rw [List.length_take]
      exact Nat.min_eq_left formed.whole
    have accepted := (@headerAcceptedIff native (native.header (content.take native.headerSize))
      content.length).mpr ⟨_,lengths,formed.header⟩
    obtain ⟨marker,whole,newline,key⟩ := markedLayout.mpr ⟨rfl,formed.layout⟩
    have named := (nameAcceptedIff _).mpr formed.named
    simp only [readEntry,wellRead,second,lengths,full,accepted,marker,whole,newline,key,formed.checksum,named]
    obtain ⟨h,key,fileSize⟩ := entry
    cases size
    cases header
    simp

end format

section context
variable {native : Native} {answers : FileAnswers} {path content : Bytes} {len : Nat} {ctx : ReadContext}

theorem overwriteStart (buffer bytes : Bytes) {n : Nat} (within : n ≤ bytes.length) :
    (overwrite buffer 0 bytes).take n = bytes.take n := by
  simp [overwrite,List.take_append_of_le_length within]

theorem overwriteAt (buffer bytes : Bytes) {n : Nat} (within : n < bytes.length) :
    (overwrite buffer 0 bytes)[n]? = bytes[n]? := by
  simp [overwrite,List.getElem?_append_left within]

def Rc.value : Rc → Int
  | .declined => ngxDeclined
  | _ => ngxError

structure Delivered (len : Nat) (content : Bytes) (entry : EntryKey) (out : Int × ReadContext) : Prop where
  result : out.1 = (min len (entry.key.length + 1) : Nat)
  entryKeyLen : out.2.entryKeyLen = entry.key.length
  buffer : out.2.keyBuffer.take (entry.key.length + 1) = entry.buffer
  fileSize : out.2.fileSize = content.length

def Reads (len : Nat) (content : Bytes) : Except Rc EntryKey → Int × ReadContext → Prop
  | .ok entry, out => Delivered len content entry out
  | .error rc, out => out.1 = rc.value

theorem readsTest {c : Prop} [Decidable c] {x : Except Rc EntryKey} {y : Int × ReadContext} (rc : Rc)
    (rest : ¬ c → Reads len content x y) :
    Reads len content (if c then .error rc else x) (if c then (rc.value,ctx) else y) := by
  split
  · rfl
  · rename_i passed
    exact rest passed

theorem openedReads : Reads len content (readEntry native answers path content)
    (readOpened native answers path content len ctx) := by
  unfold readEntry readOpened
  refine readsTest .error fun _ => readsTest .declined fun _ => readsTest .error fun _ => ?_
  refine readsTest .declined fun full => ?_
  have full : (content.take native.headerSize).length = native.headerSize := not_not.mp full
  have record : (overwrite ctx.record 0 (content.take native.headerSize)).take native.headerSize =
      content.take native.headerSize := by
    rw [overwriteStart _ _ (Nat.le_of_eq full.symm),List.take_of_length_le (Nat.le_of_eq full)]
  dsimp only
  rw [record]
  refine readsTest .declined fun _ => readsTest .error fun _ => readsTest .declined fun _ => readsTest .error fun _ => ?_
  generalize (native.header (content.take native.headerSize)).headerStart -
    (native.headerSize + keyMarker.length) - 1 = size
  generalize (content.drop (native.headerSize + keyMarker.length)).take (size + 1) = got
  by_cases enough : got.length = size + 1
  · rw [overwriteStart _ _ (by omega),overwriteAt _ _ (by omega)]
    refine readsTest .declined fun found => readsTest .declined fun _ => ?_
    simp only [Bool.or_eq_true,decide_eq_true_eq,not_or,not_not] at found
    have key : (got.take size).length = size := by rw [List.length_take]; omega
    refine ⟨by rw [key],key.symm,?_,rfl⟩
    change (overwrite ctx.keyBuffer 0 got).take ((got.take size).length + 1) = got.take size ++ [lineFeed]
    rw [key,overwriteStart _ _ (Nat.le_of_eq enough.symm),List.take_add_one,found.1.2]
    rfl
  · simp only [enough,ne_eq,not_false_eq_true,decide_true,Bool.true_or,if_true]
    rfl

theorem valueNegative (rc : Rc) : rc.value < 0 := by
  cases rc <;> decide

theorem readIntoReads : (∃ entry, readKey native answers path content = .ok entry ∧
      Delivered len content entry (readInto native answers path content len ctx)) ∨
    ((∀ entry, readKey native answers path content ≠ .ok entry) ∧
      (readInto native answers path content len ctx).1 < 0 ∧
      (readInto native answers path content len ctx).2.entryKeyLen = 0) := by
  unfold readKey readInto
  cases answers.file with
  | vanished => exact .inr ⟨fun _ read => (by contradiction),valueNegative .declined,rfl⟩
  | failed => exact .inr ⟨fun _ read => (by contradiction),valueNegative .error,rfl⟩
  | opened =>
    dsimp only
    cases answers.closed with
    | false => exact .inr ⟨fun _ read => (by contradiction),valueNegative .error,rfl⟩
    | true =>
      have reads := @openedReads native answers path content len {ctx with entryKeyLen := 0}
      simp only [if_true]
      cases verdict : readEntry native answers path content with
      | ok entry =>
        rw [verdict] at reads
        left
        refine ⟨entry,rfl,?_⟩
        rw [if_neg (by rw [reads.result]; omega)]
        exact reads
      | error rc =>
        rw [verdict] at reads
        right
        have negative : (readOpened native answers path content len {ctx with entryKeyLen := 0}).1 < 0 := by
          rw [show _ = rc.value from reads]
          exact valueNegative rc
        exact ⟨fun _ read => (by contradiction),negative,by rw [if_pos negative]⟩

theorem readAnswered {entry : EntryKey} (read : readKey native answers path content = .ok entry) :
    answers = wellRead := by
  unfold readKey at read
  split at read <;> try contradiction
  rename_i opened
  split at read <;> try contradiction
  rename_i closed
  unfold readEntry at read
  obtain ⟨info,read⟩ := testPassed read
  obtain ⟨regular,read⟩ := testPassed read
  obtain ⟨header,read⟩ := testPassed read
  obtain ⟨_,read⟩ := testPassed read
  obtain ⟨_,read⟩ := testPassed read
  obtain ⟨marker,read⟩ := testPassed read
  obtain ⟨_,read⟩ := testPassed read
  obtain ⟨key,read⟩ := testPassed read
  obtain ⟨file,info',regular',header',marker',key',closed'⟩ := answers
  simp at opened closed info regular header marker key
  subst opened closed info regular header marker key
  rfl

theorem wellReadKey : readKey native wellRead path content = readEntry native wellRead path content := rfl

theorem nativeUnique {key key' : Bytes} (left : NativeEntry native path content key)
    (right : NativeEntry native path content key') : key = key' := by
  have formed {key : Bytes} (entry : NativeEntry native path content key) :
      readEntry native wellRead path content =
        .ok ⟨native.header (content.take native.headerSize),key,content.length⟩ :=
    entryIff.mpr ⟨entry,rfl,rfl⟩
  exact congrArg EntryKey.key (Except.ok.inj ((formed left).symm.trans (formed right)))

theorem readFormat (native : Native) (answers : FileAnswers) (path content : Bytes) (len : Nat) (ctx : ReadContext) :
    let out := readInto native answers path content len ctx
    (∃ key, answers = wellRead ∧ NativeEntry native path content key ∧ out.1 = (min len (key.length + 1) : Nat) ∧
      out.2.entryKeyLen = key.length ∧ out.2.keyBuffer.take out.2.entryKeyLen = key) ∨
    ((∀ key, answers = wellRead → ¬ NativeEntry native path content key) ∧ out.1 < 0 ∧ out.2.entryKeyLen = 0) := by
  intro out
  rcases @readIntoReads native answers path content len ctx with ⟨entry,read,delivered⟩ | ⟨unread,negative,empty⟩
  · left
    have all := readAnswered read
    rw [all,wellReadKey] at read
    refine ⟨entry.key,all,(entryIff.mp read).1,delivered.result,delivered.entryKeyLen,?_⟩
    have whole := congrArg (List.take entry.key.length) delivered.buffer
    rw [List.take_take,Nat.min_eq_left (Nat.le_succ _)] at whole
    rw [delivered.entryKeyLen,whole]
    exact List.take_left
  · right
    refine ⟨fun key all entry_ => ?_,negative,empty⟩
    have read : readKey native wellRead path content =
        .ok ⟨native.header (content.take native.headerSize),key,content.length⟩ :=
      entryIff.mpr ⟨entry_,rfl,rfl⟩
    exact absurd read (all ▸ unread _)

/- The reader accepts exactly the native format: a file in that layout under its
name is accepted with its key, any other leaves no key behind; in particular what
is written in the layout, under either name, is read back. -/
theorem keyReadExact (native : Native) (answers : FileAnswers) (path content : Bytes) (len : Nat) (ctx : ReadContext) :
    let out := readInto native answers path content len ctx
    (0 ≤ out.1 ↔ answers = wellRead ∧ ∃ key, NativeEntry native path content key) ∧
    (∀ key, answers = wellRead → NativeEntry native path content key →
      out.1 = (min len (key.length + 1) : Nat) ∧ out.2.entryKeyLen = key.length ∧
      out.2.keyBuffer.take out.2.entryKeyLen = key) ∧
    (out.1 < 0 → out.2.entryKeyLen = 0) ∧
    ∀ record key body, answers = wellRead → content = fileWritten record key body →
      record.length = native.headerSize → HeaderFits native (native.header record) key.length content.length →
      native.crc32 key = (native.header record).crc32 → NameFits native (native.header record) key path →
      out.1 = (min len (key.length + 1) : Nat) ∧ out.2.entryKeyLen = key.length ∧
      out.2.keyBuffer.take out.2.entryKeyLen = key := by
  intro out
  have read (key : Bytes) (all : answers = wellRead) (entry : NativeEntry native path content key) :
      out.1 = (min len (key.length + 1) : Nat) ∧ out.2.entryKeyLen = key.length ∧
        out.2.keyBuffer.take out.2.entryKeyLen = key := by
    rcases readFormat native answers path content len ctx with ⟨key',_,entry',delivered⟩ | ⟨foreign,_⟩
    · cases nativeUnique entry' entry
      exact delivered
    · exact absurd entry (foreign key all)
  refine ⟨⟨fun counted => ?_,?_⟩,read,fun negative => ?_,
    fun record key body all written sized header checksum named => ?_⟩
  · rcases readFormat native answers path content len ctx with ⟨key,all,entry,_⟩ | ⟨_,negative,_⟩
    · exact ⟨all,key,entry⟩
    · exact absurd counted (not_le.mpr negative)
  · rintro ⟨all,key,entry⟩
    rw [(read key all entry).1]
    exact Int.natCast_nonneg _
  · rcases readFormat native answers path content len ctx with ⟨key,_,_,counted,_⟩ | ⟨_,_,empty⟩
    · rw [counted] at negative
      omega
    · exact empty
  · subst written
    exact read key all (writtenEntry sized header checksum named)

end context

end CachePurge
