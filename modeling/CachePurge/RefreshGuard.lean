import CachePurge.RefreshPages
import CachePurge.Selectors

/-! ngx_http_cache_refresh_guard: the check of the target a probe has arrived at,
after location lookup and internal redirects. What the origin will be sent is the
list of configured headers, and repeated names stay in it. -/
namespace CachePurge

structure ProxyHeader where
  key : Bytes
  value : Bytes
  deriving DecidableEq, Repr

/- proxy_method: a complex value with what it evaluates to in this request, or the
text that core keeps before 1.11.6. -/
inductive ProxyMethod where
  | unset
  | complex (value : Option Bytes)
  | text (value : Bytes)
  deriving DecidableEq, Repr

structure ProbeTarget where
  probe : Bool
  internal : Bool
  uri : Bytes
  passRequestHeaders : Bool
  passRequestBody : Bool
  interceptErrors : Bool
  cache : Bool
  method : ProxyMethod
  headersSource : Option (List ProxyHeader)
  deriving DecidableEq, Repr

inductive GuardVerdict where
  | declined
  | rejected (reason : String)
  | literal (header : Bytes)
  deriving DecidableEq, Repr

def dollar : UInt8 := 36

def headMethod : Bytes := [72,69,65,68]

def hostHeader : Bytes := [72,111,115,116]

def ifNoneMatch : Bytes := [73,102,45,78,111,110,101,45,77,97,116,99,104]

def ifModifiedSince : Bytes := [73,102,45,77,111,100,105,102,105,101,100,45,83,105,110,99,101]

def etagVariable : Bytes := [36,99,97,99,104,101,95,112,117,114,103,101,95,114,101,102,114,101,115,104,95,101,116,97,103]

def modifiedVariable : Bytes :=
  [36,99,97,99,104,101,95,112,117,114,103,101,95,114,101,102,114,101,115,104,95,108,97,115,116,95,109,111,100,105,102,105,101,100]

/- ngx_strchr, on a string that ends at its first zero byte. -/
def strchr (c : UInt8) (s : Bytes) : Bool := (s.takeWhile (· != 0)).contains c

namespace ProxyHeader

def named (name : Bytes) (h : ProxyHeader) : Bool :=
  h.key.length == name.length && caseEqual h.key.length h.key name

def leaks (h : ProxyHeader) : Bool :=
  strchr dollar h.value && !(h.named ifNoneMatch || h.named ifModifiedSince)

end ProxyHeader

structure HeaderFlags where
  host : Bool
  etag : Bool
  modified : Bool
  deriving DecidableEq, Repr

def HeaderFlags.read (h : ProxyHeader) (f : HeaderFlags) : HeaderFlags where
  host := if h.named hostHeader then !h.value.isEmpty && !strchr dollar h.value else f.host
  etag := if h.named ifNoneMatch then h.value == etagVariable else f.etag
  modified := if h.named ifModifiedSince then h.value == modifiedVariable else f.modified

def guardHeaders : List ProxyHeader → HeaderFlags → Bytes ⊕ HeaderFlags
  | [], f => .inr f
  | h :: rest, f => if h.leaks then .inl h.key else guardHeaders rest (f.read h)

def ProxyMethod.evaluate : ProxyMethod → Option Bytes
  | .unset => some headMethod
  | .complex value => value
  | .text [] => some headMethod
  | .text value => some (if value.getLast? == some 32 then value.dropLast else value)

def ProbeTarget.headers (t : ProbeTarget) : List ProxyHeader := t.headersSource.getD []

def guardFlags (f : HeaderFlags) : GuardVerdict :=
  if !f.host then .rejected "a non-empty literal \"Host\" header is required"
  else if !f.etag then .rejected "\"If-None-Match\" must be $cache_purge_refresh_etag"
  else if !f.modified then .rejected "\"If-Modified-Since\" must be $cache_purge_refresh_last_modified"
  else .declined

def guardVerdict (refreshLocation : Bytes) (t : ProbeTarget) : GuardVerdict :=
  if !t.probe then .declined
  else if !t.internal then .rejected "location must be internal"
  else if t.uri ≠ refreshLocation then .rejected "internal redirect changed the profile URI"
  else if t.passRequestHeaders then .rejected "\"proxy_pass_request_headers\" must be off"
  else if t.passRequestBody then .rejected "\"proxy_pass_request_body\" must be off"
  else if t.interceptErrors then .rejected "\"proxy_intercept_errors\" must be off"
  else if t.cache then .rejected "\"proxy_cache\" must be off"
  else match t.method.evaluate with
    | none => .rejected "could not evaluate \"proxy_method\""
    | some method =>
      if method ≠ headMethod then .rejected "\"proxy_method\" must be HEAD"
      else match guardHeaders t.headers ⟨false,false,false⟩ with
        | .inl header => .literal header
        | .inr flags => guardFlags flags

def refreshGuard (refreshLocation : Bytes) (t : ProbeTarget) (job : RefreshJob) : GuardVerdict × RefreshJob :=
  let verdict := guardVerdict refreshLocation t
  (verdict,if verdict = .declined then job else refreshReject job)

theorem guardStep (config : Config) (late : Bool) (p : Process) (page : Page) (s : Pages) {id probe : Nat}
    (flying : (page.job.request && probe ∈ page.flying) = true) (refreshLocation : Bytes) (t : ProbeTarget) :
    (guardVerdict refreshLocation t = .declined → (refreshGuard refreshLocation t page.job).2 = page.job) ∧
    (guardVerdict refreshLocation t ≠ .declined → pageStep config late p page s (.reject id probe) =
      (s.setJob page.id (refreshGuard refreshLocation t page.job).2,[.rejected page.id probe])) := by
  constructor
  · intro accepted
    simp only [refreshGuard,accepted,if_true]
  · intro refused
    simp only [pageStep,refreshGuard,flying,if_true,if_neg refused]

def ProxyHeader.Named (name : Bytes) (h : ProxyHeader) : Prop := lowered h.key = lowered name

def LastNamed (name : Bytes) (h : ProxyHeader) (hs : List ProxyHeader) : Prop :=
  ∃ front back, hs = front ++ h :: back ∧ h.Named name ∧ ∀ other ∈ back, ¬ other.Named name

theorem cutZero {a b : Bytes} (cut : Cut a b) : 0 ∈ b := by
  obtain ⟨_,_,front,back,_,split_,_⟩ := cut
  simp [split_]

theorem namedIff {name : Bytes} (text : 0 ∉ name) (h : ProxyHeader) : h.named name = true ↔ h.Named name := by
  unfold ProxyHeader.named ProxyHeader.Named
  rw [Bool.and_eq_true,beq_iff_eq]
  constructor
  · rintro ⟨length,same⟩
    rcases (caseEqualTakes (Nat.le_refl _) length).mp same with equal | cut
    · rwa [List.take_length] at equal
    · exact absurd (cutZero cut) text
  · intro equal
    have length : h.key.length = name.length := by simpa using congrArg List.length equal
    exact ⟨length,(caseEqualTakes (Nat.le_refl _) length).mpr (.inl (by rwa [List.take_length]))⟩

theorem lastConcat {name : Bytes} {h last : ProxyHeader} {rest : List ProxyHeader} :
    LastNamed name h (rest ++ [last]) ↔ (h = last ∧ last.Named name) ∨ (¬ last.Named name ∧ LastNamed name h rest) := by
  constructor
  · rintro ⟨front,back,split_,named,others⟩
    rcases List.eq_nil_or_concat back with rfl | ⟨back,other,rfl⟩
    · obtain ⟨_,same⟩ := List.append_inj' split_ rfl
      cases same
      exact .inl ⟨rfl,named⟩
    · rw [List.concat_eq_append,← List.cons_append,← List.append_assoc] at split_
      obtain ⟨before,same⟩ := List.append_inj' split_ rfl
      cases same
      exact .inr ⟨others last (by simp),front,back,before,named,fun o member => others o (by simp [member])⟩
  · rintro (⟨rfl,named⟩ | ⟨other,front,back,rfl,named,others⟩)
    · exact ⟨rest,[],rfl,named,by simp⟩
    · refine ⟨front,back ++ [last],by simp,named,fun o member => ?_⟩
      rcases List.mem_append.mp member with earlier | final
      · exact others o earlier
      · rwa [List.mem_singleton.mp final]

theorem lastVerdict {name : Bytes} (text : 0 ∉ name) (verdict : ProxyHeader → Bool) (hs : List ProxyHeader) :
    hs.foldl (fun flag h => if h.named name then verdict h else flag) false = true ↔
      ∃ h, LastNamed name h hs ∧ verdict h = true := by
  induction hs using List.reverseRecOn with
  | nil =>
    simp only [List.foldl_nil,Bool.false_eq_true,false_iff]
    rintro ⟨h,⟨front,back,split_,_⟩,_⟩
    cases front <;> contradiction
  | append_singleton rest last ih =>
    rw [List.foldl_append,List.foldl_cons,List.foldl_nil]
    cases own : last.named name with
    | true =>
      have named := (namedIff text last).mp own
      simp only [if_true,lastConcat]
      constructor
      · intro holds
        exact ⟨last,.inl ⟨rfl,named⟩,holds⟩
      · rintro ⟨h,⟨rfl,_⟩ | ⟨other,_⟩,holds⟩
        · exact holds
        · exact absurd named other
    | false =>
      have other : ¬ last.Named name := fun named => by rw [(namedIff text last).mpr named] at own; contradiction
      simp [ih,lastConcat,other]

theorem readFlags (hs : List ProxyHeader) (f : HeaderFlags) : hs.foldl (fun f h => f.read h) f =
    ⟨hs.foldl (fun flag h => if h.named hostHeader then !h.value.isEmpty && !strchr dollar h.value else flag) f.host,
      hs.foldl (fun flag h => if h.named ifNoneMatch then h.value == etagVariable else flag) f.etag,
      hs.foldl (fun flag h => if h.named ifModifiedSince then h.value == modifiedVariable else flag) f.modified⟩ := by
  induction hs generalizing f with
  | nil => rfl
  | cons h rest ih => exact ih (f.read h)

theorem guardHeadersRead {hs : List ProxyHeader} {f flags : HeaderFlags} : guardHeaders hs f = .inr flags ↔
    (∀ h ∈ hs, h.leaks = false) ∧ flags = hs.foldl (fun f h => f.read h) f := by
  induction hs generalizing f with
  | nil =>
    simp only [guardHeaders,List.foldl_nil,List.not_mem_nil,false_implies,implies_true,true_and,Sum.inr.injEq]
    exact eq_comm
  | cons h rest ih =>
    unfold guardHeaders
    cases leak : h.leaks with
    | true => simp [leak]
    | false => simp [leak,ih]

theorem leaksNot (h : ProxyHeader) : h.leaks = false ↔
    (strchr dollar h.value = true → h.Named ifNoneMatch ∨ h.Named ifModifiedSince) := by
  rw [← namedIff (by decide) h,← namedIff (by decide) h]
  unfold ProxyHeader.leaks
  cases strchr dollar h.value <;> cases h.named ifNoneMatch <;> simp

structure Accepts (refreshLocation : Bytes) (t : ProbeTarget) : Prop where
  internal : t.internal = true
  uri : t.uri = refreshLocation
  requestHeaders : t.passRequestHeaders = false
  requestBody : t.passRequestBody = false
  interceptErrors : t.interceptErrors = false
  cache : t.cache = false
  method : t.method.evaluate = some headMethod
  variables_ : ∀ h ∈ t.headers, strchr dollar h.value = true → h.Named ifNoneMatch ∨ h.Named ifModifiedSince
  host : ∃ h, LastNamed hostHeader h t.headers ∧ h.value ≠ [] ∧ strchr dollar h.value = false
  etag : ∃ h, LastNamed ifNoneMatch h t.headers ∧ h.value = etagVariable
  modified : ∃ h, LastNamed ifModifiedSince h t.headers ∧ h.value = modifiedVariable

theorem flagsDeclined (f : HeaderFlags) : guardFlags f = .declined ↔
    f.host = true ∧ f.etag = true ∧ f.modified = true := by
  obtain ⟨host,etag,modified⟩ := f
  cases host <;> cases etag <;> cases modified <;> simp [guardFlags]

theorem headersAccepted (hs : List ProxyHeader) :
    (∃ flags, guardHeaders hs ⟨false,false,false⟩ = .inr flags ∧ guardFlags flags = .declined) ↔
    (∀ h ∈ hs, strchr dollar h.value = true → h.Named ifNoneMatch ∨ h.Named ifModifiedSince) ∧
    (∃ h, LastNamed hostHeader h hs ∧ h.value ≠ [] ∧ strchr dollar h.value = false) ∧
    (∃ h, LastNamed ifNoneMatch h hs ∧ h.value = etagVariable) ∧
    ∃ h, LastNamed ifModifiedSince h hs ∧ h.value = modifiedVariable := by
  simp only [guardHeadersRead,flagsDeclined,leaksNot,and_assoc,exists_and_left,readFlags]
  refine and_congr_right fun _ => ?_
  rw [exists_eq_left]
  simp only [lastVerdict (show 0 ∉ hostHeader by decide),lastVerdict (show 0 ∉ ifNoneMatch by decide),
    lastVerdict (show 0 ∉ ifModifiedSince by decide)]
  simp

theorem guardAccepts {refreshLocation : Bytes} {t : ProbeTarget} (probe : t.probe = true) :
    guardVerdict refreshLocation t = .declined ↔ Accepts refreshLocation t := by
  have headers := headersAccepted t.headers
  unfold guardVerdict
  rw [probe]
  constructor
  · intro declined
    simp only [Bool.not_true,Bool.false_eq_true,if_false] at declined
    split at declined <;> try contradiction
    rename_i internal
    split at declined <;> try contradiction
    rename_i uri
    split at declined <;> try contradiction
    rename_i requestHeaders
    split at declined <;> try contradiction
    rename_i requestBody
    split at declined <;> try contradiction
    rename_i interceptErrors
    split at declined <;> try contradiction
    rename_i cache
    split at declined <;> try contradiction
    rename_i method evaluated
    split at declined <;> try contradiction
    rename_i head
    split at declined <;> try contradiction
    rename_i flags read
    obtain ⟨variables_,host,etag,modified⟩ := headers.mp ⟨flags,read,declined⟩
    exact ⟨by simpa using internal,not_not.mp uri,by simpa using requestHeaders,by simpa using requestBody,
      by simpa using interceptErrors,by simpa using cache,by rw [evaluated,not_not.mp head],variables_,host,etag,modified⟩
  · intro accepts
    obtain ⟨flags,read,declined⟩ :=
      headers.mpr ⟨accepts.variables_,accepts.host,accepts.etag,accepts.modified⟩
    simp only [accepts.internal,accepts.uri,accepts.requestHeaders,accepts.requestBody,accepts.interceptErrors,
      accepts.cache,accepts.method,read,declined]
    simp

structure ClientFree (hs : List ProxyHeader) : Prop where
  variables_ : ∀ h ∈ hs, dollar ∈ h.value → (h.Named ifNoneMatch ∧ h.value = etagVariable) ∨
    (h.Named ifModifiedSince ∧ h.value = modifiedVariable)
  etag : ∀ h ∈ hs, h.Named ifNoneMatch → h.value = etagVariable
  modified : ∀ h ∈ hs, h.Named ifModifiedSince → h.value = modifiedVariable
  host : ∃ h, LastNamed hostHeader h hs ∧ h.value ≠ []
  literal : ∀ h ∈ hs, h.Named hostHeader → dollar ∉ h.value

def RepeatsExact (name value : Bytes) (hs : List ProxyHeader) : Prop :=
  ∀ front h back, hs = front ++ h :: back → h.Named name → (∃ later ∈ back, later.Named name) → h.value = value

def VariablesVisible (hs : List ProxyHeader) : Prop := ∀ h ∈ hs, dollar ∈ h.value → strchr dollar h.value = true

theorem lastUnique {name : Bytes} {hs : List ProxyHeader} {a b : ProxyHeader} (left : LastNamed name a hs)
    (right : LastNamed name b hs) : a = b := by
  induction hs using List.reverseRecOn with
  | nil =>
    obtain ⟨front,back,split_,_⟩ := left
    cases front <;> contradiction
  | append_singleton rest last ih =>
    rcases lastConcat.mp left with ⟨rfl,named⟩ | ⟨other,before⟩
    · rcases lastConcat.mp right with ⟨rfl,_⟩ | ⟨other,_⟩
      · rfl
      · exact absurd named other
    · rcases lastConcat.mp right with ⟨rfl,named⟩ | ⟨_,before'⟩
      · exact absurd named other
      · exact ih before before'

theorem allNamed {name value : Bytes} {hs : List ProxyHeader} (last : ∃ h, LastNamed name h hs ∧ h.value = value) :
    RepeatsExact name value hs ↔ ∀ h ∈ hs, h.Named name → h.value = value := by
  constructor
  · intro exact_ h member named
    obtain ⟨front,back,split_⟩ := List.append_of_mem member
    by_cases later : ∃ other ∈ back, other.Named name
    · exact exact_ front h back split_ named later
    · obtain ⟨other,final,same⟩ := last
      have mine : LastNamed name h hs := ⟨front,back,split_,named,fun o inside own => later ⟨o,inside,own⟩⟩
      rw [lastUnique mine final,same]
  · intro all front h back split_ named _
    exact all h (by simp [split_]) named

theorem namedApart {name other : Bytes} (apart : lowered name ≠ lowered other) {h : ProxyHeader}
    (named : h.Named name) : ¬ h.Named other := fun both => apart (named.symm.trans both)

theorem acceptedFree {refreshLocation : Bytes} {t : ProbeTarget} (accepts : Accepts refreshLocation t) :
    ClientFree t.headers ↔ VariablesVisible t.headers ∧ RepeatsExact ifNoneMatch etagVariable t.headers ∧
      RepeatsExact ifModifiedSince modifiedVariable t.headers := by
  rw [allNamed accepts.etag,allNamed accepts.modified]
  constructor
  · intro free
    refine ⟨fun h member inside => ?_,free.etag,free.modified⟩
    rcases free.variables_ h member inside with ⟨_,value⟩ | ⟨_,value⟩ <;> rw [value] <;> decide
  · rintro ⟨visible,etag,modified⟩
    have conditional (h : ProxyHeader) (member : h ∈ t.headers) (inside : dollar ∈ h.value) :
        h.Named ifNoneMatch ∨ h.Named ifModifiedSince :=
      accepts.variables_ h member (visible h member inside)
    refine ⟨fun h member inside => ?_,etag,modified,?_,fun h member named inside => ?_⟩
    · exact (conditional h member inside).imp (fun named => ⟨named,etag h member named⟩)
        fun named => ⟨named,modified h member named⟩
    · obtain ⟨h,last,some_,_⟩ := accepts.host
      exact ⟨h,last,some_⟩
    · rcases conditional h member inside with other | other
      · exact namedApart (by decide) named other
      · exact namedApart (by decide) named other

/- Whom the guard lets through, and when what it lets through is free of the
client: the loop keeps only the verdict on the last header of each name. -/
theorem guardFree (refreshLocation : Bytes) (t : ProbeTarget) :
    (t.probe = true → (guardVerdict refreshLocation t = .declined ↔ Accepts refreshLocation t)) ∧
    ((t.probe = true → guardVerdict refreshLocation t = .declined → ClientFree t.headers) ↔
      (t.probe = true → Accepts refreshLocation t → VariablesVisible t.headers ∧
        RepeatsExact ifNoneMatch etagVariable t.headers ∧
        RepeatsExact ifModifiedSince modifiedVariable t.headers)) := by
  refine ⟨guardAccepts,?_⟩
  constructor
  · intro free probe accepts
    exact (acceptedFree accepts).mp (free probe ((guardAccepts probe).mpr accepts))
  · intro exact_ probe declined
    have accepts := (guardAccepts probe).mp declined
    exact (acceptedFree accepts).mpr (exact_ probe accepts)

def clientVariable : Bytes := [36,104,116,116,112,95,105,102,95,110,111,110,101,95,109,97,116,99,104]

def leakyTarget : ProbeTarget where
  probe := true
  internal := true
  uri := [47,112]
  passRequestHeaders := false
  passRequestBody := false
  interceptErrors := false
  cache := false
  method := .complex (some headMethod)
  headersSource := some [⟨hostHeader,[111]⟩,⟨ifNoneMatch,clientVariable⟩,
    ⟨ifNoneMatch,etagVariable⟩,⟨ifModifiedSince,modifiedVariable⟩]

theorem guardLeaks : guardVerdict [47,112] leakyTarget = .declined ∧ ¬ ClientFree leakyTarget.headers := by
  refine ⟨by decide,fun free => ?_⟩
  have value := free.etag ⟨ifNoneMatch,clientVariable⟩ (by decide) rfl
  revert value
  decide

end CachePurge
