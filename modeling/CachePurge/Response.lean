import CachePurge.Bytes
import Mathlib.Data.Nat.Digits.Defs

/-! The replies of the module: the catalog of results, the key as text or as Base64,
its escaping, and ngx_http_cache_purge_send_result. The decoder of UTF-8, Base64 and
the JSON and HTML escapes are the core's; a written buffer is the bytes in it. -/
namespace CachePurge

def text (s : String) : Bytes := s.toList.map fun c => c.toNat.toUInt8

theorem textOf (chars : List Char) : text (String.ofList chars) = chars.map fun c => c.toNat.toUInt8 := by
  rw [text,String.toList_ofList]

def decimal (n : Nat) : Bytes := if n = 0 then [48] else (Nat.digits 10 n).reverse.map fun d => 48 + d.toUInt8

/- An ngx_str_t: len bytes from an address on. -/
structure Str where
  mem : Nat → UInt8
  data : Nat
  len : Nat

def Str.bytes (s : Str) : Bytes := (List.range s.len).map fun i => s.mem (s.data + i)

@[simp] theorem strLength (s : Str) : s.bytes.length = s.len := by simp [Str.bytes]

def Str.null : Str := ⟨fun _ => 0,0,0⟩

inductive ResponseType where
  | html | xml | json | text | none
  deriving DecidableEq, Repr

inductive ResultCode where
  | purged | noMatch | accepted | invalidated | status | refreshComplete | refreshIncomplete | invalidSelector
  | invalidCursor | methodNotAllowed | accessDenied | cacheUnavailable | keyMismatch | deleteFailed | scanFailed
  | internalError
  deriving DecidableEq, Repr

structure Response where
  status : Nat
  code : Bytes
  title : Bytes
  detail : Bytes
  deriving DecidableEq, Repr

def response : ResultCode → Response
  | .purged => ⟨200,text "purged",text "OK",text "Matching cache files were deleted."⟩
  | .noMatch => ⟨200,text "no_match",text "OK",text "No matching cache entry was found."⟩
  | .accepted => ⟨202,text "accepted",text "Accepted",text "Cleanup was accepted; completion is not guaranteed."⟩
  | .invalidated =>
    ⟨200,text "invalidated",text "OK",text "Logical invalidation is complete; physical cleanup is pending."⟩
  | .status => ⟨200,text "status",text "OK",text "Queue status snapshot."⟩
  | .refreshComplete =>
    ⟨200,text "refresh_complete",text "OK",text "The refresh scan finished; inspect each entry result."⟩
  | .refreshIncomplete =>
    ⟨200,text "refresh_incomplete",text "OK",text "Refresh is incomplete; inspect the cursor and entry results."⟩
  | .invalidSelector =>
    ⟨400,text "invalid_selector",text "Bad Request",text "The selector exceeds the supported key length."⟩
  | .invalidCursor =>
    ⟨400,text "invalid_cursor",text "Bad Request",text "Provide one cursor containing exactly 32 hexadecimal digits."⟩
  | .methodNotAllowed =>
    ⟨405,text "method_not_allowed",text "Method Not Allowed",text "Use a method listed in the Allow header."⟩
  | .accessDenied =>
    ⟨403,text "access_denied",text "Forbidden",text "The client is not permitted to purge this cache."⟩
  | .cacheUnavailable => ⟨500,text "cache_unavailable",text "Internal Server Error",
      text "No usable cache zone is configured for this operation."⟩
  | .keyMismatch => ⟨500,text "key_mismatch",text "Internal Server Error",
      text "The configured cache key does not satisfy the namespace contract."⟩
  | .deleteFailed => ⟨500,text "delete_failed",text "Internal Server Error",
      text "At least one deletion failed; some files may already have been removed."⟩
  | .scanFailed => ⟨500,text "scan_failed",text "Internal Server Error",
      text "The cache scan failed; some files may already have been processed."⟩
  | .internalError => ⟨500,text "internal_error",text "Internal Server Error",
      text "The operation could not be completed; consult the server error log."⟩

/- What ngx_utf8_decode returns, where it leaves the pointer, and what it reads. -/
structure DecodeStep where
  value : UInt32
  next : Nat
  reads : List Nat

inductive Escaped where
  | count (extra : Nat)
  | last (written : Bytes)
  deriving DecidableEq, Repr

structure ReplyCore where
  utf8Decode : (Nat → UInt8) → Nat → Nat → DecodeStep
  encodeBase64 : Bytes → Bytes
  escapeJson : Option Bytes → Bytes → Escaped
  escapeHtml : Option Bytes → Bytes → Escaped

section key
variable (decode : (Nat → UInt8) → Nat → Nat → DecodeStep)

def forbidden (c : UInt32) : Bool :=
  0x10ffff < c || (0xd800 ≤ c && c ≤ 0xdfff) || c == 0xfffe || c == 0xffff ||
    (c < 0x20 && c != 9 && c != 10 && c != 13)

def textLoop (mem : Nat → UInt8) (limit : Nat) : Nat → Nat → List Nat → Option (Bool × List Nat)
  | fuel, p, reads =>
    if p < limit then match fuel with
      | 0 => none
      | fuel + 1 =>
        let c := mem p
        let step : DecodeStep := if c < 0x80 then ⟨c.toUInt32,p + 1,[p]⟩
          else
            let decoded := decode mem p (limit - p)
            {decoded with reads := p :: decoded.reads}
        if forbidden step.value then some (false,reads ++ step.reads)
        else textLoop mem limit fuel step.next (reads ++ step.reads)
    else some (true,reads)

def textKey (key : Str) : Option (Bool × List Nat) :=
  textLoop decode key.mem (key.data + key.len) key.len key.data []

end key

def escapeCdata : Option Bytes → Nat → Bytes → Escaped
  | dst, extra, 93 :: 93 :: 62 :: src => escapeCdata (dst.map (· ++ text "]]]]><![CDATA[>")) (extra + 12) src
  | dst, extra, c :: src => escapeCdata (dst.map (· ++ [c])) extra src
  | some written, _, [] => .last written
  | none, extra, [] => .count extra

def escapeKey (core : ReplyCore) (dst : Option Bytes) (src : Bytes) (type : ResponseType) : Escaped :=
  if src.length = 0 then match dst with
    | some written => .last written
    | none => .count 0
  else match type with
    | .json => core.escapeJson dst src
    | .html => core.escapeHtml dst src
    | .text => match dst with
      | some written => .last (written ++ src)
      | none => .count 0
    | _ => escapeCdata dst 0 src

def Escaped.written : Escaped → Bytes
  | .last written => written
  | .count _ => []

structure Result where
  code : ResultCode
  deleted : Nat
  deleteErrors : Nat
  scanErrors : Nat
  counted : Bool
  deriving DecidableEq, Repr

structure ReplyConf where
  responseType : ResponseType
  queueStatus : Bool
  refresh : Bool
  deriving DecidableEq, Repr

structure ReplyMemory where
  headers : Bool
  key : Bool
  buffer : Bool
  deriving DecidableEq, Repr

inductive Reply where
  | failed
  | header (status : Nat)
  | full (status : Nat) (contentType : Bytes) (capacity : Nat) (body : Bytes)
  deriving DecidableEq, Repr

def ReplyConf.type (conf : ReplyConf) : ResponseType :=
  if conf.queueStatus || conf.refresh then .json else conf.responseType

def contentType : ResponseType → Bytes
  | .html => text "text/html"
  | .xml => text "application/xml"
  | .text => text "text/plain"
  | _ => text "application/json"

def bodyOpening : ResponseType → Bytes
  | .html => text "<!doctype html><html><head><title>Cache Purge</title></head><body><h1>Cache Purge</h1><p>Key: "
  | .xml => text "<?xml version=\"1.0\" encoding=\"UTF-8\"?><response><Key><![CDATA["
  | .text => text "Key: "
  | _ => text "\x7b\"key\":\""

def trueOrFalse (b : Bool) : Bytes := if b then text "true" else text "false"

def bodyClosing (code encoding : Bytes) (complete pending : Bool) : ResponseType → Bytes
  | .html => text "</p><p>Code: " ++ code ++ text "</p><p>Key encoding: " ++ encoding ++ text "</p></body></html>"
  | .xml => text "]]></Key><Code>" ++ code ++ text "</Code><KeyEncoding>" ++ encoding ++
      text "</KeyEncoding></response>"
  | .text => text "\nCode: " ++ code ++ text "\nKey encoding: " ++ encoding ++ text "\n"
  | _ => text "\",\"key_encoding\":\"" ++ encoding ++ text "\",\"code\":\"" ++ code ++ text "\",\"complete\":" ++
      trueOrFalse complete ++ text ",\"cleanup_pending\":" ++ trueOrFalse pending

def problem (desc : Response) : Bytes :=
  text "\x7b\"type\":\"about:blank\",\"title\":\"" ++ desc.title ++ text "\",\"status\":" ++ decimal desc.status ++
    text ",\"detail\":\"" ++ desc.detail ++ text "\",\"code\":\"" ++ desc.code ++ text "\""

def counters (result : Result) : Bytes :=
  if result.counted then text ",\"deleted\":" ++ decimal result.deleted ++ text ",\"delete_errors\":" ++
    decimal result.deleteErrors ++ text ",\"scan_errors\":" ++ decimal result.scanErrors
  else []

def jsonEnd (result : Result) (type : ResponseType) (body : Bytes) : Bytes :=
  if type = .json then body ++ counters result ++ text "\x7d" else body

def successBody (core : ReplyCore) (result : Result) (key encoding : Bytes) (type : ResponseType) : Bytes :=
  let desc := response result.code
  let pending := result.code = .accepted || result.code = .invalidated
  (escapeKey core (some (bodyOpening type)) key type).written ++
    bodyClosing desc.code encoding (desc.status = 200) pending type

def replyKey (core : ReplyCore) (memory : ReplyMemory) (key : Str) : Option (Bytes × Bytes) :=
  if key.len = 0 then some ([],text "utf-8")
  else match textKey core.utf8Decode key with
    | some (true, _) => some (key.bytes,text "utf-8")
    | some (false, _) => if memory.key then some (core.encodeBase64 key.bytes,text "base64") else none
    | none => none

def sendResult (core : ReplyCore) (bits : Nat) (conf : ReplyConf) (memory : ReplyMemory) (keys : List Str)
    (result : Result) : Reply :=
  let desc := response result.code
  if !memory.headers then .failed
  else if conf.type = .none then .header (if desc.status = 200 then 204 else desc.status)
  else
    let failing := 400 ≤ desc.status
    let type := if failing then .json else conf.type
    let key := if failing then .null else keys.head?.getD .null
    if (2^bits - 1 - 2048) / 8 < key.len then .failed
    else match replyKey core memory key with
      | none => .failed
      | some (key, encoding) =>
        if !memory.buffer then .failed
        else .full desc.status (if failing then text "application/problem+json" else contentType type)
          ((2048 + key.length * 6) % 2^bits)
          (jsonEnd result type (if failing then problem desc else successBody core result key encoding type))

end CachePurge
