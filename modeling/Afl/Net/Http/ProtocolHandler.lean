import Afl.Net.Http.BodySink
import Afl.Net.Http.Request

/-!
# The HTTP protocol handler

`afl/net/http/protocolhandler.cpp` with `errorresponse.cpp`. The handler reads requests out of the buffers it is given,
has the dispatcher create a response for each, feeds the body to it, and queues the finished responses.

`m_response`, `m_responseSink` and `m_responseKeepalive` have a meaning in the state `ReadingData` only, so they are
arguments of that state.
-/

namespace Afl.Net.Http

open Feed

/-- A dispatcher and the responses it creates, as state machines: `δ` is the state of the dispatcher, `ρ` the state
of a response. -/
structure Dispatcher (δ ρ : Type) where
  createNewResponse : δ → Request → Option ρ × δ
  handleData : ρ → Bytes → ρ
  handleDataComplete : ρ → ρ
  isKeepalive : ρ → Bool
  getData : ρ → Bytes × ρ

structure ErrorResponse where
  message : Bytes
  sent : Bool
deriving DecidableEq

namespace ErrorResponse

/-- The text of an error response, depending on what the client wants to see. -/
def create (req : Request) (text : Bytes) : ErrorResponse :=
  let header :=
    if req.isResponseHeaderRequested then
      req.version ++ lit " " ++ text ++ lit "\r\nConnection: close\r\nContent-Type: text/plain; charset=UTF-8\r\n" ++
        lit "Content-Length: " ++ decimalNat text.length ++ lit "\r\n\r\n"
    else []
  ⟨header ++ if req.isResponseBodyRequested then text else [], false⟩

def getData (e : ErrorResponse) : Bytes × ErrorResponse :=
  if e.sent then ([], e) else (e.message, { e with sent := true })

end ErrorResponse

/-- A response: one of the dispatcher's, or an error response. -/
inductive Response (ρ : Type)
  | user (r : ρ)
  | error (e : ErrorResponse)

namespace Response

variable {δ ρ : Type} (d : Dispatcher δ ρ)

def handleData : Response ρ → Bytes → Response ρ
  | .user r, data => .user (d.handleData r data)
  | .error e, _ => .error e

def handleDataComplete : Response ρ → Response ρ
  | .user r => .user (d.handleDataComplete r)
  | .error e => .error e

def isKeepalive : Response ρ → Bool
  | .user r => d.isKeepalive r
  | .error _ => false

def getData : Response ρ → Bytes × Response ρ
  | .user r => ((d.getData r).1, .user (d.getData r).2)
  | .error e => (e.getData.1, .error e.getData.2)

end Response

/-- `ProtocolHandler::State`, with the members that belong to it. -/
inductive InputState (ρ : Type)
  | readingRequest
  | readingData (response : Response ρ) (responseSink : BodySink) (responseKeepalive : Bool)
  | close

/-- The members of the handler, with the state of the dispatcher. -/
structure ProtocolHandler (δ ρ : Type) where
  state : InputState ρ
  dispatcher : δ
  request : Request
  requestHeaderLength : Nat
  maxRequestHeaderLength : Nat
  finishedResponses : List (Response ρ)

structure Operation where
  dataToSend : Bytes
  close : Bool
  timeToWait : Nat

def RECEIVE_TIMEOUT : Nat := 30000

def SEND_TIMEOUT : Nat := 30000

/-- The part of `handleData` that decides how the body of a request is delimited. -/
def Request.bodySink (r : Request) : BodySink :=
  match HeaderTable.get r.headers (lit "Transfer-Encoding") with
  | some f => if f.getPrimaryValue = lit "chunked" then .chunked .create else .limited 0
  | none =>
    match HeaderTable.get r.headers (lit "Content-Length") with
    | some f => .limited ((strToULong f.getPrimaryValue).getD 0)
    | none => .limited 0

namespace ProtocolHandler

variable {δ ρ : Type} (d : Dispatcher δ ρ)

def create (dispatcher : δ) (maxRequestHeaderLength : Nat) : ProtocolHandler δ ρ :=
  ⟨.readingRequest, dispatcher, .create, 0, maxRequestHeaderLength, []⟩

/-- The loop of `getOperation`: the data to send, and the queue that is left. -/
def sendLoop : List (Response ρ) → Bytes × List (Response ρ)
  | [] => ([], [])
  | r :: rest =>
    if (r.getData d).1 ≠ [] then ((r.getData d).1, (r.getData d).2 :: rest) else sendLoop rest

def isClosed (h : ProtocolHandler δ ρ) : Bool :=
  match h.state with
  | .close => true
  | _ => false

def getOperation (h : ProtocolHandler δ ρ) : Operation × ProtocolHandler δ ρ :=
  let (dataToSend, finishedResponses) := sendLoop d h.finishedResponses
  let h := { h with finishedResponses := finishedResponses }
  if dataToSend ≠ [] then (⟨dataToSend, false, SEND_TIMEOUT⟩, h) else (⟨[], h.isClosed, RECEIVE_TIMEOUT⟩, h)

def dispatch (dispatcher : δ) (r : Request) : Response ρ × δ :=
  match d.createNewResponse dispatcher r with
  | (some response, dispatcher') => (.user response, dispatcher')
  | (none, dispatcher') => (.error (.create r (lit "404 Not Found")), dispatcher')

/-- The response to a complete request, and the dispatcher after it. -/
def respond (dispatcher : δ) (r : Request) : Response ρ × δ :=
  if r.hasErrors then (.error (.create r (lit "400 Bad Request")), dispatcher) else dispatch d dispatcher r

def digestRequest (h : ProtocolHandler δ ρ) (r : Request) : ProtocolHandler δ ρ :=
  { h with
    state := .readingData (respond d h.dispatcher r).1 r.bodySink r.isKeepalive
    dispatcher := (respond d h.dispatcher r).2
    request := .create
    requestHeaderLength := 0 }

def readRequest (h : ProtocolHandler δ ρ) (bytes : Bytes) : ProtocolHandler δ ρ × Bytes :=
  match h.state with
  | .readingRequest =>
    let (r, rest) := h.request.handleData bytes
    if r.isFinished then (h.digestRequest d r, rest)
    else
      let h := { h with request := r }
      if bytes.length ≥ h.maxRequestHeaderLength - h.requestHeaderLength then ({ h with state := .close }, rest)
      else ({ h with requestHeaderLength := h.requestHeaderLength + bytes.length }, rest)
  | _ => (h, bytes)

def finishResponse (h : ProtocolHandler δ ρ) (response : Response ρ) (responseKeepalive : Bool) :
    ProtocolHandler δ ρ :=
  let response := response.handleDataComplete d
  { h with
    state := if responseKeepalive && response.isKeepalive d then .readingRequest else .close
    finishedResponses := h.finishedResponses ++ [response] }

def readData (h : ProtocolHandler δ ρ) (bytes : Bytes) : ProtocolHandler δ ρ × Bytes :=
  match h.state with
  | .readingData response sink keepalive =>
    let (pieces, sink', rest) := sink.handleData bytes
    let response := pieces.foldl (Response.handleData d) response
    if sink'.isComplete then (h.finishResponse d response keepalive, rest)
    else ({ h with state := .readingData response sink' keepalive }, rest)
  | _ => (h, bytes)

def turn (h : ProtocolHandler δ ρ) (bytes : Bytes) : ProtocolHandler δ ρ × Bytes :=
  (h.readRequest d bytes).1.readData d (h.readRequest d bytes).2

/-- `handleData`. Every turn consumes a byte or closes. -/
def handleData (h : ProtocolHandler δ ρ) (bytes : Bytes) : ProtocolHandler δ ρ :=
  ((turns isClosed (turn d) (bytes.length + 2) h bytes).getD (h, bytes)).1

end ProtocolHandler

inductive Action
  | handleData (bytes : Bytes)
  | getOperation

variable {δ ρ : Type} (d : Dispatcher δ ρ)

/-- A run: the operations that `getOperation` reported, and the handler after it. -/
def interact : ProtocolHandler δ ρ → List Action → List Operation × ProtocolHandler δ ρ
  | h, [] => ([], h)
  | h, .handleData bytes :: actions => interact (h.handleData d bytes) actions
  | h, .getOperation :: actions =>
    let (op, h) := h.getOperation d
    (op :: (interact h actions).1, (interact h actions).2)

def received : List Action → Bytes
  | [] => []
  | .handleData bytes :: actions => bytes ++ received actions
  | .getOperation :: actions => received actions

end Afl.Net.Http
