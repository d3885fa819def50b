import Afl.Net.Http.FormParser

/-!
# Page requests and responses

`afl/net/http/pagerequest.cpp`, `pageresponse.cpp` and `page.hpp`. The arguments of a request are the fields that its
form parser has been given: the consumer of the parser is the argument table.
-/

namespace Afl.Net

def HeaderTable.set (name value : Bytes) : HeaderTable → HeaderTable
  | [] => [⟨name, value⟩]
  | f :: t => if strCaseCompare name f.name = 0 then { f with value := value } :: t else f :: set name value t

namespace Http

inductive InputStatus
  | undecided
  | ignore
  | saveBody
  | parseForm
deriving DecidableEq

structure PageRequest where
  m_headers : HeaderTable
  m_body : Bytes
  m_method : Bytes
  m_rootPath : Bytes
  m_selfPath : Bytes
  m_path : Bytes
  m_inputStatus : InputStatus
  m_formParser : FormParser
deriving DecidableEq

namespace PageRequest

/-- The constructor: the arguments of the path are taken from it. -/
def create (rootPath selfPath path : Bytes) : PageRequest where
  m_headers := []
  m_body := []
  m_method := lit "GET"
  m_rootPath := rootPath
  m_selfPath := selfPath
  m_path := (matchArguments path).2
  m_inputStatus := .undecided
  m_formParser := .create (matchArguments path).1

def arguments (r : PageRequest) : HeaderTable := r.m_formParser.consumer

def setMethod (r : PageRequest) (method : Bytes) : PageRequest := { r with m_method := method }

def setIgnoreData (r : PageRequest) : PageRequest := { r with m_inputStatus := .ignore }

def bodyStatus (r : PageRequest) : InputStatus :=
  if r.m_method = lit "GET" ∨ r.m_method = lit "HEAD" then .ignore
  else
    match HeaderTable.get r.m_headers (lit "Content-Type") with
    | some hf =>
      if strCaseCompare hf.getPrimaryValue (lit "application/x-www-form-urlencoded") = 0 then .parseForm
      else if strCaseCompare hf.getPrimaryValue (lit "multipart/form-data") = 0 then .ignore
      else .saveBody
    | none => .ignore

/-- The first data decide what becomes of all data. -/
def decideStatus (r : PageRequest) : PageRequest :=
  if r.m_inputStatus = .undecided then { r with m_inputStatus := r.bodyStatus } else r

def receive (r : PageRequest) (data : Bytes) : PageRequest :=
  match r.m_inputStatus with
  | .undecided | .ignore => r
  | .saveBody => { r with m_body := r.m_body ++ data }
  | .parseForm => { r with m_formParser := r.m_formParser.handleData data }

def handleData (r : PageRequest) (data : Bytes) : PageRequest := r.decideStatus.receive data

def finish (r : PageRequest) : PageRequest :=
  match r.m_inputStatus with
  | .undecided | .ignore | .saveBody => r
  | .parseForm => { r with m_formParser := r.m_formParser.handleDataComplete }

end PageRequest

structure PageResponse where
  m_statusCode : Int
  m_headers : HeaderTable
  m_body : Bytes
deriving DecidableEq

namespace PageResponse

def OK : Int := 200

def REDIRECT_FOUND : Int := 302

def BAD_REQUEST : Int := 400

def NOT_FOUND : Int := 404

def METHOD_NOT_ALLOWED : Int := 405

def INTERNAL_SERVER_ERROR : Int := 500

def create : PageResponse := ⟨OK, [], []⟩

def setStatusCode (r : PageResponse) (statusCode : Int) : PageResponse := { r with m_statusCode := statusCode }

def getStatusText (r : PageResponse) : Bytes :=
  if r.m_statusCode = OK then lit "OK"
  else if r.m_statusCode = REDIRECT_FOUND then lit "Found"
  else if r.m_statusCode = BAD_REQUEST then lit "Bad Request"
  else if r.m_statusCode = NOT_FOUND then lit "Not Found"
  else if r.m_statusCode = METHOD_NOT_ALLOWED then lit "Method Not Allowed"
  else if r.m_statusCode = INTERNAL_SERVER_ERROR then lit "Internal Server Error"
  else
    match r.m_statusCode.tdiv 100 with
    | 1 => lit "Informative"
    | 2 => lit "Success"
    | 3 => lit "Redirect"
    | 4 => lit "Client Error"
    | 6 => lit "Server Error"
    | _ => lit "Error"

def addErrorText (r : PageResponse) : PageResponse :=
  if r.m_body = [] ∧ 300 ≤ r.m_statusCode then
    { r with
      m_body := r.getStatusText
      m_headers := r.m_headers ++ [⟨lit "Content-Type", lit "text/plain; charset=UTF-8"⟩] }
  else r

def finish (r : PageResponse) : PageResponse :=
  { r.addErrorText with
    m_headers := r.addErrorText.m_headers.set (lit "Content-Length") (decimal r.addErrorText.m_body.length) }

end PageResponse

/-- `Page`: a page may change the request, and fills the response. -/
structure Page where
  isValidMethod : Bytes → Bool
  isValidPath : Bool
  handleRequest : PageRequest → PageResponse → PageRequest × PageResponse

/-! ### Data in pieces -/

namespace PageRequest

theorem decideStatus_handleData (r : PageRequest) (data : Bytes) :
    (r.handleData data).decideStatus = r.handleData data := by
  have hbody : r.bodyStatus ≠ .undecided := by
    rw [bodyStatus]
    split_ifs
    · exact InputStatus.noConfusion
    · split
      · split_ifs <;> exact InputStatus.noConfusion
      · exact InputStatus.noConfusion
  have hdecided : r.decideStatus.m_inputStatus ≠ .undecided := by
    rw [decideStatus]
    split_ifs with hundecided
    · exact hbody
    · exact hundecided
  have hreceive : (r.handleData data).m_inputStatus = r.decideStatus.m_inputStatus := by
    rw [handleData, receive]
    split <;> rfl
  rw [decideStatus, if_neg (hreceive ▸ hdecided)]

theorem receive_append (r : PageRequest) (a b : Bytes) : r.receive (a ++ b) = (r.receive a).receive b := by
  rcases hstatus : r.m_inputStatus with _ | _ | _ | _
  · simp only [receive, hstatus]
  · simp only [receive, hstatus]
  · simp only [receive, hstatus, List.append_assoc]
  · simp only [receive, hstatus, FormParser.handleData, List.foldl_append]

theorem handleData_append (r : PageRequest) (a b : Bytes) :
    r.handleData (a ++ b) = (r.handleData a).handleData b := by
  conv_rhs => rw [handleData, decideStatus_handleData]
  rw [handleData, handleData, receive_append]

/-- **Chunks do not matter**: one after another they are what they are in one piece. -/
theorem foldl_handleData (r : PageRequest) (chunk : Bytes) (chunks : List Bytes) :
    (chunk :: chunks).foldl handleData r = r.handleData (chunk :: chunks).flatten := by
  induction chunks generalizing r chunk with
  | nil => rw [List.flatten_cons, List.flatten_nil, List.append_nil, List.foldl_cons, List.foldl_nil]
  | cons next chunks ih =>
    rw [List.foldl_cons, ih, ← handleData_append]
    rfl

theorem arguments_form {r : PageRequest} {path : HeaderTable} (hundecided : r.m_inputStatus = .undecided)
    (hbody : r.bodyStatus = .parseForm) (hpath : r.m_formParser = .create path) (chunks : List Bytes) :
    (chunks.foldl handleData r).finish.arguments = path ++ FormParser.received chunks := by
  cases chunks with
  | nil =>
    rw [List.foldl_nil, finish, hundecided]
    dsimp only
    rw [arguments, hpath]
    exact (List.append_nil path).symm
  | cons chunk chunks =>
    have hdecided : r.decideStatus = { r with m_inputStatus := .parseForm } := by
      rw [decideStatus, if_pos hundecided, hbody]
    rw [foldl_handleData, handleData, hdecided, FormParser.received_eq]
    simp only [receive, finish, arguments, hpath, FormParser.handleData_query]
    rfl

end PageRequest

end Http

end Afl.Net
