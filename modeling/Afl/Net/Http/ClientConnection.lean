import Afl.Lib.Exec
import Afl.Net.Http.BodySink
import Afl.Net.Http.ClientResponse

/-!
# Connections of the HTTP client

`afl/net/http/clientconnection.cpp`, with `ClientRequest` and the sinks a response body goes through. `RequestClass` has
the virtual functions of a class derived from `ClientRequest`, none of which throws. The inflating sink rests on zlib
and is a parameter too (`InflateClass`).

Every call of these functions on behalf of a transfer is recorded, together with the identity of the request.
Dereferencing a null pointer and violating an assertion is `none`.
-/

namespace Afl.Net

structure Name where
  name : Bytes
  service : Bytes
deriving DecidableEq

namespace Http

/-! ### Requests -/

inductive FailureReason
  | cancelled
  | connectionFailed
  | connectionClosed
  | unsupportedProtocol
  | networkError
  | serverError
deriving DecidableEq

/-- The virtual functions of a class derived from `ClientRequest`, whose objects have state `ρ`. The final callbacks
`handleFailure` and `handleSuccess` give nothing back. -/
class RequestClass (ρ : Type) where
  getName : ρ → Name
  getScheme : ρ → Bytes
  isHeadRequest : ρ → Bool
  getRequestData : ρ → Bytes × ρ
  restart : ρ → Bool × ρ
  handleResponseHeader : ρ → ClientResponse → ρ
  handleResponseData : ρ → Bytes → ρ

/-- A request object; `object` tells it from every other one. -/
structure ClientRequest (ρ : Type) where
  object : Nat
  requestId : UInt32
  data : ρ

/-- A call of one of the virtual functions. -/
inductive Callback
  | getRequestData (data : Bytes)
  | restart (allowed : Bool)
  | handleResponseHeader
  | handleResponseData (data : Bytes)
  | handleFailure (reason : FailureReason) (message : Bytes)
  | handleSuccess
deriving DecidableEq

def Callback.isTerminal : Callback → Bool
  | .handleFailure _ _ => true
  | .handleSuccess => true
  | _ => false

/-- Calls with the request they were made on, in order. -/
abbrev Calls := List (Nat × Callback)

def operationCancelled : Bytes := lit "Operation cancelled"

def networkConnectionLost : Bytes := lit "Network connection lost"

def unknownError : Bytes := lit "Unknown error"

/-! ### The sinks of a response -/

/-- `InflateTransform::Personality`, as far as the client uses it. -/
inductive Personality
  | gzip
  | raw
deriving DecidableEq

/-- An exception: the text of a `std::exception`, or anything else. -/
abbrev Thrown := Option Bytes

/-- `InflateDataSink`: what it hands to its peer for a piece of data, and how it goes on. -/
class InflateClass (δ : Type) where
  create : Personality → Except Thrown δ
  handleData : δ → Bytes → List Bytes × Except Thrown δ

/-- The stack of sinks `m_pResponseSink` points to, above the `ResponseSink`: the body's delimiter if it has one, and
the inflating sink if the body is encoded. -/
structure ResponseSinks (δ : Type) where
  limit : Option BodySink
  inflate : Option δ

namespace ResponseSinks

variable {δ : Type}

/-- The result of `handleData`: only a delimiter reports the end of the body. -/
def isComplete (s : ResponseSinks δ) : Bool := s.limit.any BodySink.isComplete

variable [InflateClass δ]

def createInflate : Encoding → Except Thrown (Option δ)
  | .identityEncoding => .ok none
  | .gzipEncoding => (InflateClass.create .gzip).map some
  | .deflateEncoding => (InflateClass.create .raw).map some
  | .unknownEncoding => .ok none

def createLimit (r : ClientResponse) : Option BodySink :=
  match r.getResponseLimitKind with
  | .byteLimit => some (.limited r.getResponseLength.toNat)
  | .chunkLimit => some (.chunked .create)
  | .streamLimit => none

def create (r : ClientResponse) : Except Thrown (ResponseSinks δ) :=
  (createInflate r.getResponseEncoding).map fun inflate => ⟨createLimit r, inflate⟩

def delimit (data : Bytes) : Option BodySink → List Bytes × Option BodySink
  | none => ([data], none)
  | some sink => ((sink.handleData data).1, some (sink.handleData data).2.1)

/-- One piece on its way to the `ResponseSink`. -/
def inflatePiece (piece : Bytes) : Option δ → List Bytes × Except Thrown (Option δ)
  | none => ([piece], .ok none)
  | some d => ((InflateClass.handleData d piece).1, (InflateClass.handleData d piece).2.map some)

def inflateAll : Option δ → List Bytes → List Bytes × Except Thrown (Option δ)
  | inflate, [] => ([], .ok inflate)
  | inflate, piece :: pieces =>
    match inflatePiece piece inflate with
    | (out, .error e) => (out, .error e)
    | (out, .ok inflate) => (out ++ (inflateAll inflate pieces).1, (inflateAll inflate pieces).2)

/-- `m_pResponseSink->handleData`: the data for `handleResponseData`, and the sinks or an exception. -/
def handleData (s : ResponseSinks δ) (data : Bytes) : List Bytes × Except Thrown (ResponseSinks δ) :=
  let d := delimit data s.limit
  let r := inflateAll s.inflate d.1
  (r.1, r.2.map fun inflate => ⟨d.2, inflate⟩)

end ResponseSinks

/-! ### The connection -/

inductive ConnectionState
  | wantWait
  | beforeSend
  | duringSend
  | beforeReceiveHeader
  | duringReceiveHeader
  | beforeReceivePayload
  | duringReceivePayload
  | wantClose
deriving DecidableEq

/-- The operations a connection passes to its socket. -/
inductive OperationKind
  | send
  | receive
deriving DecidableEq

/-- The address of an operation: the connection it is a member of, and which one it is. -/
structure AsyncOperation where
  connection : Nat
  kind : OperationKind
deriving DecidableEq

structure SendOperation where
  data : Bytes
  numSentBytes : Nat

namespace SendOperation

def isCompleted (op : SendOperation) : Bool := op.numSentBytes ≥ op.data.length

def getUnsentBytes (op : SendOperation) : Bytes := op.data.drop op.numSentBytes

end SendOperation

/-- A connection. `self` is its identity, `received` what the last receive operation put into `m_receiveBuffer`, and
`active` the operation its socket is working on. -/
structure ClientConnection (ρ δ : Type) where
  self : Nat
  name : Name
  scheme : Bytes
  request : Option (ClientRequest ρ)
  response : Option ClientResponse
  responseSink : Option (ResponseSinks δ)
  state : ConnectionState
  idleTime : UInt32
  sendOperation : SendOperation
  received : Bytes
  active : Option OperationKind

namespace ClientConnection

inductive Action
  | waitForRequest
  | transferring
  | shutdown
deriving DecidableEq

def idleTimeout : UInt32 := 30000

def networkTimeout : UInt32 := 30000

variable {ρ δ : Type}

def create (self : Nat) (name : Name) (scheme : Bytes) : ClientConnection ρ δ :=
  ⟨self, name, scheme, none, none, none, .wantWait, 0, ⟨[], 0⟩, [], none⟩

def reset (c : ClientConnection ρ δ) : ClientConnection ρ δ :=
  { c with request := none, response := none, responseSink := none }

/-- A connection at work, with the calls it has made. -/
structure Work (ρ δ : Type) where
  conn : ClientConnection ρ δ
  calls : Calls

/-- `m_socket->sendAsync`, after `m_sendOperation.setData(data)`. -/
def sendAsync (c : ClientConnection ρ δ) (data : Bytes) : ClientConnection ρ δ :=
  { c with sendOperation := ⟨data, 0⟩, active := some .send, state := .duringSend, idleTime := 0 }

/-- `m_socket->receiveAsync` into the empty buffer, on the way to state `next`. -/
def receiveAsync (c : ClientConnection ρ δ) (next : ConnectionState) : ClientConnection ρ δ :=
  { c with received := [], active := some .receive, state := next, idleTime := 0 }

namespace Work

def finish (w : Work ρ δ) (callback : Callback) (next : ConnectionState) : Option (Work ρ δ) := do
  let r ← w.conn.request
  some ⟨{ w.conn.reset with state := next }, w.calls ++ [(r.object, callback)]⟩

/-- Go on with `f` if `p` holds of the connection. -/
def when (p : ClientConnection ρ δ → Bool) (f : Work ρ δ → Option (Work ρ δ)) (w : Work ρ δ) : Option (Work ρ δ) :=
  if p w.conn then f w else some w

/-- The handlers of `handleReception`. -/
def receptionFailed (w : Work ρ δ) (e : Thrown) : Option (Work ρ δ) :=
  w.finish (.handleFailure .serverError (e.getD unknownError)) .wantClose

def startReceive (next : ConnectionState) (w : Work ρ δ) : Option (Work ρ δ) :=
  some { w with conn := w.conn.receiveAsync next }

/-- `m_socket->cancel`. -/
def cancelOperation (w : Work ρ δ) : Work ρ δ := { w with conn := { w.conn with active := none } }

variable [RequestClass ρ]

/-- A restartable error: the request is kept if it can be restarted, and fails otherwise. -/
def restartOrFail (reason : FailureReason) (w : Work ρ δ) : Option (Work ρ δ) := do
  let r ← w.conn.request
  let (allowed, data) := RequestClass.restart r.data
  let calls := w.calls ++ [(r.object, .restart allowed)]
  if allowed then some ⟨{ w.conn with request := some { r with data := data }, state := .wantClose }, calls⟩
  else finish ⟨w.conn, calls⟩ (.handleFailure reason networkConnectionLost) .wantClose

def sendFinished (w : Work ρ δ) : Option (Work ρ δ) :=
  if w.conn.sendOperation.isCompleted then some { w with conn := { w.conn with state := .beforeSend } }
  else if w.conn.sendOperation.numSentBytes = 0 then restartOrFail .networkError w
  else some { w with conn := w.conn.sendAsync w.conn.sendOperation.getUnsentBytes }

def startSend (w : Work ρ δ) : Option (Work ρ δ) := do
  let r ← w.conn.request
  let (data, next) := RequestClass.getRequestData r.data
  let conn := { w.conn with request := some { r with data := next } }
  let calls := w.calls ++ [(r.object, .getRequestData data)]
  if data = [] then some ⟨{ conn with sendOperation := ⟨data, 0⟩, state := .beforeReceiveHeader }, calls⟩
  else some ⟨conn.sendAsync data, calls⟩

def checkTimeout (w : Work ρ δ) : Option (Work ρ δ) :=
  match w.conn.state with
  | .wantWait =>
    if w.conn.idleTime > idleTimeout then some { w with conn := { w.conn with state := .wantClose } } else some w
  | .duringSend | .duringReceiveHeader =>
    if w.conn.idleTime > networkTimeout then restartOrFail .networkError w.cancelOperation else some w
  | .duringReceivePayload =>
    if w.conn.idleTime > networkTimeout then
      w.cancelOperation.finish (.handleFailure .networkError networkConnectionLost) .wantClose
    else some w
  | .beforeReceiveHeader | .beforeReceivePayload | .beforeSend | .wantClose => some w

variable [InflateClass δ]

/-- The payload part of `handleReception`. -/
def receivePayload (w : Work ρ δ) (data : Bytes) : Option (Work ρ δ) := do
  let r ← w.conn.request
  let sinks ← w.conn.responseSink
  let (pieces, result) := sinks.handleData data
  let r := { r with data := pieces.foldl RequestClass.handleResponseData r.data }
  let calls := w.calls ++ pieces.map fun piece => (r.object, .handleResponseData piece)
  match result with
  | .error e => receptionFailed ⟨{ w.conn with request := some r }, calls⟩ e
  | .ok sinks =>
    if sinks.isComplete then finish ⟨{ w.conn with request := some r }, calls⟩ .handleSuccess .wantWait
    else
      some ⟨{ w.conn with request := some r, responseSink := some sinks, state := .beforeReceivePayload }, calls⟩

/-- The header part of `handleReception`. -/
def receiveHeader (w : Work ρ δ) (data : Bytes) : Option (Work ρ δ) := do
  let r ← w.conn.request
  let response ← w.conn.response
  let (response, rest) := response.handleData data
  if response.isComplete then
    let r := { r with data := RequestClass.handleResponseHeader r.data response }
    let w : Work ρ δ :=
      ⟨{ w.conn with request := some r, response := some response }, w.calls ++ [(r.object, .handleResponseHeader)]⟩
    match ResponseSinks.create response with
    | .error e => receptionFailed w e
    | .ok sinks =>
      receivePayload { w with conn := { w.conn with responseSink := some sinks, state := .duringReceivePayload } } rest
  else some { w with conn := { w.conn with response := some response, state := .beforeReceiveHeader } }

/-- The receive operation finished while reading the header. -/
def headerReceived (w : Work ρ δ) : Option (Work ρ δ) :=
  if w.conn.received = [] then restartOrFail .serverError w else receiveHeader w w.conn.received

/-- The receive operation finished while reading the payload. For a body without a limit the end of the connection is
the end of the body. -/
def payloadReceived (w : Work ρ δ) : Option (Work ρ δ) :=
  if w.conn.received = [] then do
    let response ← w.conn.response
    if response.getResponseLimitKind = .streamLimit then w.finish .handleSuccess .wantClose
    else w.finish (.handleFailure .connectionClosed networkConnectionLost) .wantClose
  else receivePayload w w.conn.received

end Work

/-- `p == &m_sendOperation` or `p == &m_receiveOperation`, in state `state`. -/
def finishedIn (state : ConnectionState) (kind : OperationKind) (p : Option AsyncOperation)
    (c : ClientConnection ρ δ) : Bool :=
  c.state = state ∧ p = some ⟨c.self, kind⟩

def isIn (state : ConnectionState) (c : ClientConnection ρ δ) : Bool := c.state = state

/-- The return value of `handleEvent`. -/
def action (c : ClientConnection ρ δ) : Action :=
  if c.state = .wantClose then .shutdown
  else if c.state = .wantWait then .waitForRequest
  else .transferring

section

variable [RequestClass ρ] [InflateClass δ]

def handleEvent (p : Option AsyncOperation) (elapsed : UInt32) (c : ClientConnection ρ δ) : Option (Work ρ δ) := do
  let w : Work ρ δ := ⟨{ c with idleTime := c.idleTime + elapsed }, []⟩
  let w ← w.when (finishedIn .duringSend .send p) Work.sendFinished
  let w ← w.when (finishedIn .duringReceiveHeader .receive p) Work.headerReceived
  let w ← w.when (finishedIn .duringReceivePayload .receive p) Work.payloadReceived
  let w ← w.when (isIn .beforeSend) Work.startSend
  let w ← w.when (isIn .beforeReceiveHeader) (Work.startReceive .duringReceiveHeader)
  let w ← w.when (isIn .beforeReceivePayload) (Work.startReceive .duringReceivePayload)
  w.checkTimeout

end

def setNewRequest [RequestClass ρ] (c : ClientConnection ρ δ) (req : ClientRequest ρ) : Option (ClientConnection ρ δ) :=
  if c.state = .wantWait then
    some { c with
      request := some req, response := some (.create (RequestClass.isHeadRequest req.data)), responseSink := none,
      state := .beforeSend }
  else none

def extractRequest (c : ClientConnection ρ δ) : Option (Option (ClientRequest ρ) × ClientConnection ρ δ) :=
  if c.state = .wantClose then some (c.request, c.reset) else none

def matchRequest [RequestClass ρ] (c : ClientConnection ρ δ) (req : ClientRequest ρ) : Bool :=
  RequestClass.getName req.data = c.name ∧ RequestClass.getScheme req.data = c.scheme

def cancel (w : Work ρ δ) : Work ρ δ :=
  match w.conn.request with
  | none => w
  | some r =>
    let active := match w.conn.state with
      | .duringSend | .duringReceiveHeader | .duringReceivePayload => none
      | _ => w.conn.active
    ⟨{ w.conn.reset with active := active, state := .wantClose },
      w.calls ++ [(r.object, .handleFailure .cancelled operationCancelled)]⟩

def cancelRequest (w : Work ρ δ) (id : UInt32) : Work ρ δ :=
  match w.conn.request with
  | none => w
  | some r => if r.requestId = id then cancel w else w

end ClientConnection

end Http

end Afl.Net
