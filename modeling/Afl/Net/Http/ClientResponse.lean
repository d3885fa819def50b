import Afl.Net.Header
import Afl.String.ParseMemory

/-!
# The response parser of the HTTP client

`afl/net/http/clientresponse.cpp`. A `ClientResponse` is fed with what the connection received until it has seen
the status line and the header fields; its accessors then say how the body is delimited and encoded. The response
is the consumer of its own header parser: `handleHeader` gets each field the parser completes.
-/

namespace Afl.Net.Http

inductive Limit
  | byteLimit
  | chunkLimit
  | streamLimit
deriving DecidableEq

inductive Encoding
  | identityEncoding
  | gzipEncoding
  | deflateEncoding
  | unknownEncoding
deriving DecidableEq

inductive ResponseState
  | parseVersion
  | parseStatusCode
  | parseStatusPhrase
  | parseHeader
  | finalError
  | finalSuccess
deriving DecidableEq

structure ClientResponse where
  state : ResponseState
  version : Bytes
  statusCode : UInt32
  statusPhrase : Bytes
  isHeadRequest : Bool
  hasContentLength : Bool
  contentLength : UInt64
  hasContentRange : Bool
  contentRangeStart : UInt64
  contentRangeLength : UInt64
  contentRangeTotal : UInt64
  hasConnection : Bool
  isConnectionKeepalive : Bool
  hasChunkedTransferEncoding : Bool
  contentEncoding : Encoding
  headers : HeaderTable
  cookies : HeaderTable
  headerParser : HeaderParser
deriving DecidableEq

namespace ClientResponse

def maxPhrase : Nat := 200

def maxVersion : Nat := 32

def create (isHeadRequest : Bool) : ClientResponse where
  state := .parseVersion
  version := []
  statusCode := 0
  statusPhrase := []
  isHeadRequest := isHeadRequest
  hasContentLength := false
  contentLength := 0
  hasContentRange := false
  contentRangeStart := 0
  contentRangeLength := 0
  contentRangeTotal := 0
  hasConnection := false
  isConnectionKeepalive := false
  hasChunkedTransferEncoding := false
  contentEncoding := .identityEncoding
  headers := []
  cookies := []
  headerParser := HeaderParser.create

/-! ### Header fields -/

/-- The condition on a `Content-Range` value, with the three numbers it gives: first byte, last byte, total. -/
def parseContentRange (value : Bytes) : Option (UInt64 × UInt64 × UInt64) :=
  let mem := (parseIf charIsSpace value).2
  let bytes := parseLiteral (lit "bytes") mem
  let space := parseIf charIsSpace bytes.2
  let beg := parseNumber space.2
  let dash := parseChar 45 beg.2.2
  let last := parseNumber dash.2
  let slash := parseChar 47 last.2.2
  let tot := parseNumber slash.2
  let rest := (parseIf charIsSpace tot.2.2).2
  if 0 < bytes.1 ∧ 0 < space.1 ∧ 0 < beg.1 ∧ 0 < dash.1 ∧ 0 < last.1 ∧ 0 < slash.1 ∧ 0 < tot.1 ∧ rest = [] ∧
      beg.2.1 ≤ last.2.1 + 1 ∧ beg.2.1 ≤ tot.2.1 ∧ last.2.1 < tot.2.1 then
    some (beg.2.1, last.2.1, tot.2.1)
  else none

def handleContentLength (r : ClientResponse) (value : Bytes) : ClientResponse :=
  match strToULong value with
  | some n => { r with hasContentLength := true, contentLength := UInt64.ofNat n }
  | none => r

def handleContentRange (r : ClientResponse) (value : Bytes) : ClientResponse :=
  match parseContentRange value with
  | some (beg, last, tot) =>
    { r with
      hasContentRange := true, contentRangeStart := beg, contentRangeLength := last - beg + 1,
      contentRangeTotal := tot }
  | none => r

def handleConnection (r : ClientResponse) (value : Bytes) : ClientResponse :=
  if strCaseCompare value (lit "close") = 0 then { r with hasConnection := true, isConnectionKeepalive := false }
  else if strCaseCompare value (lit "keep-alive") = 0 then
    { r with hasConnection := true, isConnectionKeepalive := true }
  else r

def handleContentEncoding (r : ClientResponse) (value : Bytes) : ClientResponse :=
  if strCaseCompare value (lit "gzip") = 0 then { r with contentEncoding := .gzipEncoding }
  else if strCaseCompare value (lit "deflate") = 0 then { r with contentEncoding := .deflateEncoding }
  else if strCaseCompare value (lit "identity") = 0 then { r with contentEncoding := .identityEncoding }
  else { r with contentEncoding := .unknownEncoding }

/-- A cookie is kept if an equals sign comes before the first semicolon. -/
def handleCookie (r : ClientResponse) (value : Bytes) : ClientResponse :=
  match value.dropWhile fun c => c ≠ 59 ∧ c ≠ 61 with
  | c :: rest =>
    if c = 61 then
      { r with cookies := r.cookies ++ [⟨strTrim (value.takeWhile fun c => c ≠ 59 ∧ c ≠ 61), strTrim rest⟩] }
    else r
  | [] => r

def handleHeader (r : ClientResponse) (f : HeaderField) : ClientResponse :=
  if strCaseCompare f.name (lit "Content-Length") = 0 then r.handleContentLength f.value
  else if strCaseCompare f.name (lit "Content-Range") = 0 then r.handleContentRange f.value
  else if strCaseCompare f.name (lit "Connection") = 0 then r.handleConnection f.value
  else if strCaseCompare f.name (lit "Transfer-Encoding") = 0 then
    if strCaseCompare f.value (lit "chunked") = 0 then { r with hasChunkedTransferEncoding := true } else r
  else if strCaseCompare f.name (lit "Content-Encoding") = 0 then r.handleContentEncoding f.value
  else if strCaseCompare f.name (lit "Set-Cookie") = 0 then r.handleCookie f.value
  else { r with headers := r.headers ++ [f] }

/-! ### The parser -/

/-- `m_state = FinalError; m_statusCode = 500`. -/
def failParse (r : ClientResponse) : ClientResponse := { r with state := .finalError, statusCode := 500 }

def parseVersion : ClientResponse → Bytes → ClientResponse × Bytes
  | r, [] => (r, [])
  | r, ch :: data =>
    if ch = 32 ∨ ch = 9 then ({ r with state := .parseStatusCode }, data)
    else if 32 ≤ ch ∧ ch < 0x7F ∧ r.version.length < maxVersion then
      parseVersion { r with version := r.version ++ [ch] } data
    else (r.failParse, data)

def parseStatusCode : ClientResponse → Bytes → ClientResponse × Bytes
  | r, [] => (r, [])
  | r, ch :: data =>
    if ch = 32 ∨ ch = 9 then ({ r with state := .parseStatusPhrase }, data)
    else if charIsDigit ch then
      parseStatusCode { r with statusCode := 10 * r.statusCode + (ch - 48).toUInt32 } data
    else (r.failParse, data)

def parseStatusPhrase : ClientResponse → Bytes → ClientResponse × Bytes
  | r, [] => (r, [])
  | r, ch :: data =>
    if ch = 13 then parseStatusPhrase r data
    else if ch = 10 then ({ r with state := .parseHeader }, data)
    else if r.statusPhrase.length < maxPhrase then
      parseStatusPhrase { r with statusPhrase := r.statusPhrase ++ [ch] } data
    else parseStatusPhrase r data

/-- The header parser calls `handleHeader` with the fields it completes, the ones added to its table. -/
def parseHeader (r : ClientResponse) (data : Bytes) : ClientResponse × Bytes :=
  let p := r.headerParser.handleData data
  let r := (p.1.table.drop r.headerParser.table.length).foldl handleHeader { r with headerParser := p.1 }
  (if p.1.state = .final then { r with state := .finalSuccess } else r, p.2)

/-- Parse on with `f` in state `state`. -/
def inState (state : ResponseState) (f : ClientResponse → Bytes → ClientResponse × Bytes)
    (t : ClientResponse × Bytes) : ClientResponse × Bytes :=
  if t.1.state = state then f t.1 t.2 else t

def isComplete (r : ClientResponse) : Bool := r.state = .finalSuccess ∨ r.state = .finalError

/-- `handleData`: the response and the unprocessed bytes; the result is `isComplete`. -/
def handleData (r : ClientResponse) (data : Bytes) : ClientResponse × Bytes :=
  inState .parseHeader parseHeader
    (inState .parseStatusPhrase parseStatusPhrase
      (inState .parseStatusCode parseStatusCode (inState .parseVersion parseVersion (r, data))))

/-! ### Inquiry -/

def hasErrors (r : ClientResponse) : Bool :=
  r.state = .finalError ∨ r.headerParser.hasErrors ∨ r.statusCode < 100 ∨ 1000 ≤ r.statusCode

def hasBody (r : ClientResponse) : Bool :=
  ¬(r.isHeadRequest ∨ r.statusCode < 200 ∨ r.statusCode = 204 ∨ r.statusCode = 304)

def getResponseLimitKind (r : ClientResponse) : Limit :=
  if !r.hasBody then .byteLimit
  else if r.hasChunkedTransferEncoding then .chunkLimit
  else if r.hasContentRange then .byteLimit
  else if r.hasContentLength then .byteLimit
  else .streamLimit

def getResponseEncoding (r : ClientResponse) : Encoding := r.contentEncoding

def getResponseLength (r : ClientResponse) : UInt64 :=
  if !r.hasBody then 0
  else if r.hasContentRange then r.contentRangeLength
  else if r.hasContentLength then r.contentLength
  else 0

/-- Without a delimiter or after an error a connection cannot be kept; otherwise the server decides. -/
def isKeepalive (r : ClientResponse) : Bool :=
  if r.getResponseLimitKind = .streamLimit ∨ r.hasErrors then false
  else if r.hasConnection then r.isConnectionKeepalive
  else r.version = lit "HTTP/1.1"

end ClientResponse

example :
    let r := ((ClientResponse.create false).handleData
      (lit "HTTP/1.1 200 OK\r\nContent-Range: bytes 2-4/9\r\n\r\nxyz"))
    r.1.statusCode = 200 ∧ r.1.getResponseLimitKind = .byteLimit ∧ r.1.getResponseLength = 3 ∧ r.2 = lit "xyz" := by
  decide

end Afl.Net.Http
