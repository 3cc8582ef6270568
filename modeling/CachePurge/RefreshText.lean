import CachePurge.JsonReplies
import CachePurge.RefreshChain

/-! The text of a page and a client that knows nothing else: it reads each reply as JSON, and
asks again with the cursor that it finds there until it reads that the page is complete. -/
namespace CachePurge
open General
open General.Json (commas member)

def RefreshResult.name : RefreshResult → Bytes
  | .pending => text "undispatched"
  | .kept => text "kept"
  | .invalidated => text "invalidated"
  | .transport => text "transport_error"
  | .status => text "upstream_status"
  | .vary => text "skipped_vary"
  | .profile => text "skipped_profile"
  | .replaced => text "raced_replaced"
  | .error => text "invalidation_error"

def refreshOpening (body : RefreshBody) : Bytes :=
  text "\x7b\"code\":\"" ++ (if body.complete then text "refresh_complete" else text "refresh_incomplete") ++
    text "\",\"scan_complete\":" ++ trueOrFalse body.scanComplete ++ text ",\"complete\":" ++ trueOrFalse body.complete ++
    text ",\"timed_out\":" ++ trueOrFalse body.timedOut ++ text ",\"scan_error\":" ++ trueOrFalse false ++
    text ",\"undispatched\":" ++ decimal body.undispatched ++ text ",\"next_cursor\":\"" ++ body.nextCursor.take 32 ++
    text "\",\"results\":["

def refreshRow (i : Nat) (row : RefreshRow) : Bytes :=
  (if i = 0 then [] else text ",") ++ text "\x7b\"hash\":\"" ++ row.hash.take 32 ++ text "\",\"upstream_status\":" ++
    decimal row.status ++ text ",\"result\":\"" ++ row.result.name ++ text "\"\x7d"

def refreshText (body : RefreshBody) : Bytes :=
  refreshOpening body ++ (body.results.mapIdx refreshRow).flatten ++ text "]\x7d"

def refreshCapacity (body : RefreshBody) : Nat := 1024 + body.results.length * 160

/- The counters are of the C type ngx_uint_t. -/
structure RefreshBody.Wide (body : RefreshBody) : Prop where
  undispatched : body.undispatched < 2^64
  status : ∀ row ∈ body.results, row.status < 2^64

section fits

theorem resultShort (result : RefreshResult) : result.name.length ≤ 18 := by
  cases result <;> rw [RefreshResult.name,textOf] <;> decide

theorem refreshRowShort (i : Nat) {row : RefreshRow} (wide : row.status < 2^64) : (refreshRow i row).length ≤ 160 := by
  have digits := decimalWide wide
  have name := resultShort row.result
  have hash : (row.hash.take 32).length ≤ 32 := by
    rw [List.length_take]
    exact Nat.min_le_left _ _
  have comma : (if i = 0 then [] else text ",").length ≤ 1 := by
    rw [textOf]
    split <;> decide
  unfold refreshRow
  generalize (if i = 0 then [] else text ",") = mark at comma ⊢
  rw [textOf,textOf,textOf,textOf]
  simp only [List.length_append,List.length_map,List.length_cons,List.length_nil]
  omega

theorem refreshOpeningShort {body : RefreshBody} (wide : body.undispatched < 2^64) : (refreshOpening body).length ≤ 1000 := by
  have digits := decimalWide wide
  have scanComplete := flagShort body.scanComplete
  have complete := flagShort body.complete
  have timedOut := flagShort body.timedOut
  have scanError := flagShort false
  have cursor : (body.nextCursor.take 32).length ≤ 32 := by
    rw [List.length_take]
    exact Nat.min_le_left _ _
  have code : (if body.complete then text "refresh_complete" else text "refresh_incomplete").length ≤ 18 := by
    rw [textOf,textOf]
    split <;> decide
  unfold refreshOpening
  generalize (if body.complete then text "refresh_complete" else text "refresh_incomplete") = name at code ⊢
  rw [textOf,textOf,textOf,textOf,textOf,textOf,textOf,textOf]
  simp only [List.length_append,List.length_map,List.length_cons,List.length_nil]
  omega

theorem refreshRowsShort {rows : List RefreshRow} (wide : ∀ row ∈ rows, row.status < 2^64) :
    (rows.mapIdx refreshRow).flatten.length ≤ rows.length * 160 := by
  have each : ∀ n ∈ (rows.mapIdx refreshRow).map List.length, n ≤ 160 := by
    intro n member
    obtain ⟨t,inside,rfl⟩ := List.mem_map.mp member
    obtain ⟨i,below,rfl⟩ := List.mem_mapIdx.mp inside
    exact refreshRowShort i (wide _ (List.getElem_mem below))
  have total := List.sum_le_card_nsmul _ _ each
  rwa [List.length_map,List.length_mapIdx,nsmul_eq_mul,Nat.cast_id,← List.length_flatten] at total

theorem refreshFits {body : RefreshBody} (wide : body.Wide) : (refreshText body).length ≤ refreshCapacity body := by
  have opening := refreshOpeningShort wide.undispatched
  have rows := refreshRowsShort wide.status
  have ending : (text "]\x7d").length = 2 := by
    rw [textOf]
    rfl
  rw [refreshText,refreshCapacity,List.length_append,List.length_append,ending]
  omega

end fits

section reads

def rowParts (row : RefreshRow) : List JsonPart :=
  [plainPart (text "hash") (row.hash.take 32),numberPart (text "upstream_status") (decimal row.status),
    plainPart (text "result") row.result.name]

def pageParts (body : RefreshBody) : List JsonPart :=
  [plainPart (text "code") (if body.complete then text "refresh_complete" else text "refresh_incomplete"),
    flagPart (text "scan_complete") body.scanComplete,flagPart (text "complete") body.complete,
    flagPart (text "timed_out") body.timedOut,flagPart (text "scan_error") false,
    numberPart (text "undispatched") (decimal body.undispatched),plainPart (text "next_cursor") (body.nextCursor.take 32),
    listPart (text "results") (body.results.map rowParts)]

theorem rowText (row : RefreshRow) : refreshRow 0 row = objectText (rowParts row) := by
  simp only [refreshRow,if_true,objectText,rowParts,plainPart,numberPart,jsonText,List.map_cons,List.map_nil,commas,member]
  repeat rw [textOf]
  simp only [List.append_assoc,List.cons_append,List.nil_append,List.map_cons,List.map_nil]
  rfl

theorem rowsText (rows : List RefreshRow) :
    (rows.mapIdx refreshRow).flatten = commas ((rows.map rowParts).map objectText) := by
  cases rows with
  | nil => rfl
  | cons row rows =>
    have later (i : Nat) (row : RefreshRow) : refreshRow (i + 1) row = 44 :: objectText (rowParts row) := by
      rw [← rowText]
      rfl
    rw [List.map_map,List.mapIdx_cons,List.flatten_cons,List.map_cons,Json.commasCons,rowText]
    have same : rows.mapIdx (fun i => refreshRow (i + 1)) = rows.map fun row => 44 :: objectText (rowParts row) :=
      List.ext_getElem (by simp) (by simp [later])
    rw [same,List.flatMap_map,List.flatMap_def]
    rfl

theorem pageText (body : RefreshBody) : refreshText body = objectText (pageParts body) := by
  rw [refreshText,rowsText,refreshOpening]
  simp only [objectText,pageParts,listPart,plainPart,numberPart,flagPart,jsonText,List.map_cons,List.map_nil,commas,member]
  repeat rw [textOf]
  simp only [List.append_assoc,List.cons_append,List.nil_append,List.map_cons,List.map_nil]
  rfl

def rowMembers (row : RefreshRow) : List (Bytes × Json) :=
  [(text "hash",.string row.hash),(text "upstream_status",.number (decimal row.status)),
    (text "result",.string row.result.name)]

def pageMembers (body : RefreshBody) : List (Bytes × Json) :=
  [(text "code",.string (if body.complete then text "refresh_complete" else text "refresh_incomplete")),
    (text "scan_complete",.bool body.scanComplete),(text "complete",.bool body.complete),
    (text "timed_out",.bool body.timedOut),(text "scan_error",.bool false),
    (text "undispatched",.number (decimal body.undispatched)),(text "next_cursor",.string body.nextCursor),
    (text "results",.array (body.results.map fun row => .object (rowMembers row)))]

structure RefreshBody.Spelled (body : RefreshBody) : Prop where
  cursor : CursorText body.nextCursor
  hashes : ∀ row ∈ body.results, CursorText row.hash

theorem cursorPlain {cursor : Bytes} (spelled : CursorText cursor) : Json.Plain cursor := by
  have all : ∀ n : Fin 256, (hextoi (UInt8.ofNat n)).isSome = true →
      ¬ (UInt8.ofNat n < 32 ∨ UInt8.ofNat n = 34 ∨ UInt8.ofNat n = 92) := by decide +kernel
  intro c member
  have here := all ⟨c.toNat,c.toNat_lt⟩
  simp only [UInt8.ofNat_toNat] at here
  exact here (spelled.digits c member).1

theorem cursorTaken {cursor : Bytes} (spelled : CursorText cursor) : cursor.take 32 = cursor := by
  rw [← spelled.length,List.take_length]

theorem resultPlain (result : RefreshResult) : Json.Plain result.name := by
  refine wordsPlain ?_
  cases result <;> rw [RefreshResult.name,textOf] <;> rfl

theorem rowSound {row : RefreshRow} (spelled : CursorText row.hash) : ∀ p ∈ rowParts row, p.Sound := by
  simp only [rowParts,cursorTaken spelled,List.forall_mem_cons]
  refine ⟨plainSound ?_ (cursorPlain spelled),numberSound ?_ (decimalNumeral _),plainSound ?_ (resultPlain _),by simp⟩ <;>
    exact literalPlain _ rfl

theorem pageSound {body : RefreshBody} (spelled : body.Spelled) : ∀ p ∈ pageParts body, p.Sound := by
  have code : Json.Plain (if body.complete then text "refresh_complete" else text "refresh_incomplete") := by
    split <;> exact literalPlain _ rfl
  have rows : ∀ parts ∈ body.results.map rowParts, ∀ p ∈ parts, p.Sound := by
    intro parts member
    obtain ⟨row,inside,rfl⟩ := List.mem_map.mp member
    exact rowSound (spelled.hashes row inside)
  simp only [pageParts,cursorTaken spelled.cursor,List.forall_mem_cons]
  refine ⟨plainSound ?_ code,flagSound ?_ _,flagSound ?_ _,flagSound ?_ _,flagSound ?_ _,numberSound ?_ (decimalNumeral _),
    plainSound ?_ (cursorPlain spelled.cursor),listSound ?_ rows,by simp⟩ <;> exact literalPlain _ rfl

theorem pageValue {body : RefreshBody} (spelled : body.Spelled) : objectOf (pageParts body) = .object (pageMembers body) := by
  have rows : (body.results.map rowParts).map objectOf = body.results.map fun row => .object (rowMembers row) := by
    rw [List.map_map]
    refine List.map_congr_left fun row member => ?_
    simp only [Function.comp,objectOf,rowParts,rowMembers,cursorTaken (spelled.hashes row member),plainPart,numberPart,
      List.map_cons,List.map_nil]
  unfold pageParts listPart
  rw [rows,cursorTaken spelled.cursor]
  rfl

theorem pageReads {body : RefreshBody} (spelled : body.Spelled) :
    Json.read (refreshText body) = some (.object (pageMembers body)) := by
  rw [pageText,← pageValue spelled]
  exact Json.readsWhole (readsParts (pageSound spelled))

end reads

section client

structure PageView where
  complete : Bool
  cursor : Bytes
  passed : List Bytes
  deriving DecidableEq, Repr

def pageView (t : Bytes) : Option PageView := do
  let page ← Json.read t
  let complete ← (page.field (text "complete")).bind Json.asBool
  let cursor ← (page.field (text "next_cursor")).bind Json.asString
  let left ← (page.field (text "undispatched")).bind Json.asNatural
  let rows ← (page.field (text "results")).bind Json.asArray
  let hashes ← rows.mapM fun row => (row.field (text "hash")).bind Json.asString
  some ⟨complete,cursor,hashes.take (hashes.length - left)⟩

theorem naturalDecimal (n : Nat) : Json.natural (decimal n) = n := by
  unfold decimal
  split
  · rename_i zero
    rw [zero]
    rfl
  · rw [Json.natural,List.foldl_map,List.foldl_reverse]
    have value : ∀ digits : List Nat, (∀ d ∈ digits, d < 10) →
        digits.foldr (fun d n => n * 10 + ((48 + d.toUInt8).toNat - 48)) 0 = Nat.ofDigits 10 digits := by
      intro digits small
      induction digits with
      | nil => rfl
      | cons d digits ih =>
        have here := small d List.mem_cons_self
        have digit : (48 + d.toUInt8).toNat - 48 = d := by interval_cases d <;> rfl
        rw [List.foldr_cons,ih fun e member => small e (List.mem_cons_of_mem d member),digit,Nat.ofDigits_cons]
        omega
    rw [value _ fun d member => Nat.digits_lt_base (by decide) member,Nat.ofDigits_digits]

theorem pageViewed {body : RefreshBody} (spelled : body.Spelled) :
    pageView (refreshText body) = some ⟨body.complete,body.nextCursor,body.processed.map RefreshRow.hash⟩ := by
  have complete : (Json.object (pageMembers body)).field (text "complete") = some (.bool body.complete) := rfl
  have cursor : (Json.object (pageMembers body)).field (text "next_cursor") = some (.string body.nextCursor) := rfl
  have left : (Json.object (pageMembers body)).field (text "undispatched") = some (.number (decimal body.undispatched)) := rfl
  have results : (Json.object (pageMembers body)).field (text "results") =
    some (.array (body.results.map fun row => .object (rowMembers row))) := rfl
  have hashes : (body.results.map fun row => Json.object (rowMembers row)).mapM
      (fun row => (row.field (text "hash")).bind Json.asString) = some (body.results.map RefreshRow.hash) := by
    rw [List.mapM_map]
    exact List.mapM_pure
  unfold pageView
  rw [pageReads spelled]
  simp only [bind,Option.bind_some,complete,cursor,left,results,Json.asBool,Json.asString,Json.asNatural,Json.asArray,hashes,
    naturalDecimal,RefreshBody.processed,List.map_take,List.length_map]

end client

section served
variable {config : Config} {late : Bool} {members : Finset Bytes} {start : Bytes} {body : RefreshBody}

theorem servedSpelled (names : ∀ name ∈ members, CursorText name) (cursor : CursorText start)
    (served : Refreshed config late members start body) : body.Spelled := by
  obtain ⟨_,_,_,next,_⟩ := refreshedPage served
  refine ⟨next.elim (fun same => same ▸ cursor) (names _),fun row member => ?_⟩
  obtain ⟨x,_,_,_,same,_,reported⟩ := refreshedReports served
  cases scanned : body.scanComplete with
  | false =>
    rw [(reported.unfinished scanned).1] at member
    contradiction
  | true =>
    obtain ⟨_,_,rows,_⟩ := reported.finished scanned
    have inside : row.hash ∈ x.names := rows ▸ List.mem_map_of_mem member
    rw [same] at inside
    exact names _ (aboveMember.mp (List.mem_of_mem_take inside)).1

/- The text of a page fits in its buffer and reads as what the page says, and the cursor in
it is taken as it is by the next request. -/
theorem pagesRead (names : ∀ name ∈ members, CursorText name) {headers : List (Bytes × Bytes)}
    (reads : refreshCursor headers = some start) (served : Refreshed config late members start body) (wide : body.Wide) :
    (refreshText body).length ≤ refreshCapacity body ∧
    Json.read (refreshText body) = some (.object (pageMembers body)) ∧
    ∀ next key, (next.filter fun header => isCursorHeader header.1) = [(key,body.nextCursor)] →
      refreshCursor next = some body.nextCursor := by
  have spelled := servedSpelled names (cursorText reads) served
  exact ⟨refreshFits wide,pageReads spelled,fun next key once => cursorBack spelled.cursor once⟩

end served

inductive Followed (served : Bytes → RefreshBody → Prop) : List (Bytes × Bytes) → List Bytes → Prop where
  | last {headers start body view} (reads : refreshCursor headers = some start) (page : served start body)
      (sees : pageView (refreshText body) = some view) (complete : view.complete = true) :
      Followed served headers [refreshText body]
  | more {headers start body view key next rest} (reads : refreshCursor headers = some start) (page : served start body)
      (sees : pageView (refreshText body) = some view) (incomplete : view.complete = false)
      (repeats : (next.filter fun header => isCursorHeader header.1) = [(key,view.cursor)])
      (later : Followed served next rest) : Followed served headers (refreshText body :: rest)

/- A client that goes by the texts alone can read every page, knows of each whether anything
is left, and has at the end every file behind its first cursor once, in the order of the names. -/
theorem followedCovers (config : Config) (late : Bool) (members : Finset Bytes)
    (names : ∀ name ∈ members, CursorText name) :
    (∀ headers start body, refreshCursor headers = some start → Refreshed config late members start body →
      ∃ view, pageView (refreshText body) = some view ∧
        (view.complete = true → ∀ name ∈ members, ¬ view.cursor < name) ∧
        (view.complete = false → body.scanComplete = true → ∃ name ∈ members, view.cursor < name)) ∧
    ∀ headers texts start, refreshCursor headers = some start →
      Followed (Refreshed config late members) headers texts →
      ∃ views : List PageView, texts.map pageView = views.map some ∧
        views.flatMap PageView.passed = (members.filter (start < ·)).sort (· ≤ ·) := by
  have seen {headers start body} (reads : refreshCursor headers = some start) (page : Refreshed config late members start body) :=
    pageViewed (servedSpelled names (cursorText reads) page)
  constructor
  · intro headers start body reads page
    obtain ⟨_,ends,_⟩ := refreshedPage page
    refine ⟨_,seen reads page,fun complete => ?_,fun incomplete scanned => ?_⟩
    · have none_ := (ends.mp complete).2
      rw [List.eq_nil_iff_forall_not_mem] at none_
      exact fun name member behind => none_ name (aboveMember.mpr ⟨member,behind⟩)
    · by_contra nothing
      have none_ : above members body.nextCursor = [] := by
        rw [List.eq_nil_iff_forall_not_mem]
        intro name member
        obtain ⟨inside,behind⟩ := aboveMember.mp member
        exact nothing ⟨name,inside,behind⟩
      exact Bool.noConfusion (incomplete.symm.trans (ends.mpr ⟨scanned,none_⟩))
  · intro headers texts start reads chain
    induction chain generalizing start with
    | last reads' page sees complete =>
      cases Option.some.inj (reads'.symm.trans reads)
      cases Option.some.inj ((seen reads page).symm.trans sees)
      obtain ⟨_,ends,split,_,_⟩ := refreshedPage page
      rw [(ends.mp complete).2,List.append_nil] at split
      refine ⟨[_],by rw [List.map_singleton,List.map_singleton,sees],?_⟩
      simpa [above] using split.symm
    | more reads' page sees incomplete repeats later ih =>
      cases Option.some.inj (reads'.symm.trans reads)
      cases Option.some.inj ((seen reads page).symm.trans sees)
      obtain ⟨_,_,split,_,_⟩ := refreshedPage page
      have spelled := servedSpelled names (cursorText reads) page
      obtain ⟨views,same,rest⟩ := ih _ (cursorBack spelled.cursor repeats)
      refine ⟨_ :: views,by rw [List.map_cons,List.map_cons,same,sees],?_⟩
      rw [List.flatMap_cons,rest]
      exact split.symm

section site

theorem pagesReadSite : (refreshText variedFirst.body).length ≤ refreshCapacity variedFirst.body ∧
    Json.read (refreshText variedFirst.body) = some (.object (pageMembers variedFirst.body)) ∧
    ∀ next key, (next.filter fun header => isCursorHeader header.1) = [(key,variedFirst.body.nextCursor)] →
      refreshCursor next = some variedFirst.body.nextCursor :=
  @pagesRead _ _ _ _ _ variedText [] rfl (answeredServed variedBegun) ⟨by decide,by decide⟩

theorem followedCoversSite :
    ∃ views : List PageView, [refreshText variedFirst.body,refreshText variedSecond.body].map pageView = views.map some ∧
      views.flatMap PageView.passed = (variedNames.filter (List.replicate 32 48 < ·)).sort (· ≤ ·) := by
  have first := answeredServed variedBegun
  have second := answeredServed variedEnded
  have cursor : refreshCursor [(cursorHeader,plainHash thirdKey)] = some (plainHash thirdKey) := by decide +kernel
  have spelled := servedSpelled variedText (@cursorText [] _ rfl) first
  have spelled' := servedSpelled variedText (cursorText cursor) second
  have covers := followedCovers sitePages false variedNames variedText
  exact covers.2 [] _ _ rfl (@Followed.more _ _ _ _ _ cursorHeader [(cursorHeader,plainHash thirdKey)] _ rfl first
    (pageViewed spelled) rfl (by rw [List.filter_singleton]; rfl)
    (.last cursor second (pageViewed spelled') rfl))

end site

end CachePurge
