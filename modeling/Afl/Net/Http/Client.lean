import Afl.Net.Http.ClientConnection

/-!
# The HTTP client

`afl/net/http/client.cpp`: the functions that other threads call, and the worker loop `run()`. A function that holds
`m_mutex` is one step. `System` adds what lies outside the mutex: the location of the worker in its loop, the
semaphore `m_wake` and its wait operation, and the threads that have yet to post the semaphore. What `ctl.wait` returns
is chosen by the action.
-/

namespace Afl.Net.Http

/-! ### The sockets -/

/-- The result of a socket operation. -/
inductive Transfer
  | sent (n : Nat)
  | received (data : Bytes)

def Transfer.kind : Transfer → OperationKind
  | .sent _ => .send
  | .received _ => .receive

/-- The size of `m_receiveBuffer`. -/
def receiveBufferSize : Nat := 4096

/-- Can the operation the connection has started end this way? -/
def Transfer.fits {ρ δ : Type} (conn : ClientConnection ρ δ) : Transfer → Bool
  | .sent n => conn.active = some .send ∧ n ≤ conn.sendOperation.getUnsentBytes.length
  | .received data => conn.active = some .receive ∧ data.length ≤ receiveBufferSize

/-- The socket ends the operation. -/
def Transfer.apply {ρ δ : Type} (conn : ClientConnection ρ δ) : Transfer → ClientConnection ρ δ
  | .sent n =>
    { conn with
      sendOperation := ⟨conn.sendOperation.data, conn.sendOperation.numSentBytes + n⟩, active := none }
  | .received data => { conn with received := data, active := none }

/-! ### The client -/

/-- The members of a `Client` that `m_mutex` protects. An entry of `m_requests` may be null. `calls` records the
callbacks made so far, `created` and `opened` count the request and connection objects, which gives each its
identity. -/
structure Client (ρ δ : Type) where
  provider : Bool
  connections : List (ClientConnection ρ δ)
  requests : List (Option (ClientRequest ρ))
  cancels : List UInt32
  stop : Bool
  needNewConnection : Bool
  requestIdCounter : UInt32
  calls : Calls
  created : Nat
  opened : Nat

namespace Client

variable {ρ δ : Type}

def create : Client ρ δ := ⟨false, [], [], [], false, false, 0, [], 0, 0⟩

def record (c : Client ρ δ) (calls : Calls) : Client ρ δ := { c with calls := c.calls ++ calls }

/-- The call `handleFailure` on a request. -/
def failure (reason : FailureReason) (message : Bytes) (r : ClientRequest ρ) : Nat × Callback :=
  (r.object, .handleFailure reason message)

/-! ### Calls from other threads -/

def addNewConnection (name : Name) (scheme : Bytes) (c : Client ρ δ) : Client ρ δ :=
  { c with connections := c.connections ++ [.create c.opened name scheme], opened := c.opened + 1 }

def addNewRequest (data : ρ) (c : Client ρ δ) : Client ρ δ :=
  let id := c.requestIdCounter + 1
  let req : ClientRequest ρ := ⟨c.created, id, data⟩
  let c := { c with requestIdCounter := id, created := c.created + 1 }
  if c.stop then c.record [failure .cancelled operationCancelled req]
  else { c with requests := c.requests ++ [some req], needNewConnection := true }

/-- Look for the first request that satisfies `p` and take it out; `none` if the search meets a null entry. -/
def takeFirst (p : ClientRequest ρ → Bool) :
    List (Option (ClientRequest ρ)) → Option (Option (ClientRequest ρ) × List (Option (ClientRequest ρ)))
  | [] => some (none, [])
  | none :: _ => none
  | some r :: requests =>
    if p r then some (some r, requests)
    else do
      let (found, rest) ← takeFirst p requests
      some (found, some r :: rest)

/-- `cancelRequest`; the result tells whether the worker has to do it. -/
def cancelRequest (id : UInt32) (c : Client ρ δ) : Option (Bool × Client ρ δ) := do
  let (found, requests) ← takeFirst (fun r => r.requestId = id) c.requests
  match found with
  | some r => some (false, { c with requests := requests }.record [failure .cancelled operationCancelled r])
  | none => some (true, { c with cancels := c.cancels ++ [id] })

def setNewConnectionProvider (c : Client ρ δ) : Client ρ δ := { c with provider := true }

section

variable [RequestClass ρ]

def isTarget (name : Name) (scheme : Bytes) (r : ClientRequest ρ) : Bool :=
  RequestClass.getName r.data = name ∧ RequestClass.getScheme r.data = scheme

/-- The loop of `cancelRequestsByTarget`: the calls and the requests that are left. -/
def cancelTargets (name : Name) (scheme : Bytes) (reason : FailureReason) (message : Bytes) :
    List (Option (ClientRequest ρ)) → Option (Calls × List (Option (ClientRequest ρ)))
  | [] => some ([], [])
  | none :: _ => none
  | some r :: requests => do
    let (calls, rest) ← cancelTargets name scheme reason message requests
    if isTarget name scheme r then some (failure reason message r :: calls, rest) else some (calls, some r :: rest)

def cancelRequestsByTarget (name : Name) (scheme : Bytes) (reason : FailureReason) (message : Bytes)
    (c : Client ρ δ) : Option (Client ρ δ) := do
  let (calls, requests) ← cancelTargets name scheme reason message c.requests
  some ({ c with requests := requests }.record calls)

/-- The first target without a matching connection, if there is one. -/
def unsatisfiedTarget (connections : List (ClientConnection ρ δ)) :
    List (Option (ClientRequest ρ)) → Option (Option (Name × Bytes))
  | [] => some none
  | none :: _ => none
  | some r :: requests =>
    if connections.any fun conn => conn.matchRequest r then unsatisfiedTarget connections requests
    else some (some (RequestClass.getName r.data, RequestClass.getScheme r.data))

def getUnsatisfiedTarget (c : Client ρ δ) : Option (Option (Name × Bytes)) :=
  unsatisfiedTarget c.connections c.requests

end

/-! ### The worker -/

/-- Does `requestNewConnection` call the provider? -/
def callsProvider (c : Client ρ δ) : Bool := c.needNewConnection ∧ c.provider

def requestNewConnection (c : Client ρ δ) : Client ρ δ := { c with needNewConnection := false }

section

variable [RequestClass ρ] [InflateClass δ]

def extractMatchingRequest (conn : ClientConnection ρ δ) (c : Client ρ δ) :
    Option (Option (ClientRequest ρ) × Client ρ δ) := do
  let (found, requests) ← takeFirst conn.matchRequest c.requests
  some (found, { c with requests := requests })

/-- `m_requests.insertNew(m_requests.begin(), req)`, for a request that is not null. -/
def putBack (req : Option (ClientRequest ρ)) (c : Client ρ δ) : Client ρ δ :=
  match req with
  | some r => { c with requests := some r :: c.requests }
  | none => c

/-- The turns of the loop of `processConnections` on one slot: the connection if it stays, and the client. Each turn
but the last takes a request from the queue, which bounds their number. -/
def processConnection (p : Option AsyncOperation) (elapsed : UInt32) :
    Nat → ClientConnection ρ δ → Client ρ δ → Option (Option (ClientConnection ρ δ) × Client ρ δ)
  | 0, _, _ => none
  | n + 1, conn, c => do
    let w ← conn.handleEvent p elapsed
    let conn := w.conn
    let c := c.record w.calls
    match conn.action with
    | .waitForRequest =>
      let (found, c) ← c.extractMatchingRequest conn
      match found with
      | some req => do
        let conn ← conn.setNewRequest req
        processConnection p elapsed n conn c
      | none => some (some conn, c)
    | .transferring => some (some conn, c)
    | .shutdown =>
      let (req, _) ← conn.extractRequest
      some (none, { putBack req c with needNewConnection := true })

def processConnectionList (p : Option AsyncOperation) (elapsed : UInt32) :
    List (ClientConnection ρ δ) → Client ρ δ → Option (List (ClientConnection ρ δ) × Client ρ δ)
  | [], c => some ([], c)
  | conn :: connections, c => do
    let (kept, c) ← processConnection p elapsed (c.requests.length + 1) conn c
    let (connections, c) ← processConnectionList p elapsed connections c
    some (kept.toList ++ connections, c)

def processConnections (p : Option AsyncOperation) (elapsed : UInt32) (c : Client ρ δ) : Option (Client ρ δ) := do
  let (connections, c) ← processConnectionList p elapsed c.connections c
  some { c with connections := connections }

/-- The loop body of `processCancels`. A connection that wants to close has no request left. -/
def processCancel (ids : List UInt32) (conn : ClientConnection ρ δ) :
    Option (Option (ClientConnection ρ δ) × Calls) := do
  let w := ids.foldl ClientConnection.cancelRequest ⟨conn, []⟩
  let w' ← w.conn.handleEvent none 0
  let calls := w.calls ++ w'.calls
  if w'.conn.action = .shutdown then do
    let (req, _) ← w'.conn.extractRequest
    if req.isSome then none else some (none, calls)
  else some (some w'.conn, calls)

def processCancelList (ids : List UInt32) :
    List (ClientConnection ρ δ) → Option (List (ClientConnection ρ δ) × Calls)
  | [] => some ([], [])
  | conn :: connections => do
    let (kept, calls) ← processCancel ids conn
    let (connections, more) ← processCancelList ids connections
    some (kept.toList ++ connections, calls ++ more)

def processCancels (c : Client ρ δ) : Option (Client ρ δ) :=
  if c.cancels = [] then some c
  else do
    let (connections, calls) ← processCancelList c.cancels c.connections
    some ({ c with connections := connections, cancels := [] }.record calls)

end

/-- The end of `run()`. `extractElement` leaves a null pointer in each slot. -/
def cancelEverything (c : Client ρ δ) : Client ρ δ :=
  let works := c.connections.map fun conn => ClientConnection.cancel ⟨conn, []⟩
  { c with
    requests := c.requests.map fun _ => none
    connections := works.map ClientConnection.Work.conn
    calls := c.calls ++ (c.requests.filterMap id).map (failure .cancelled operationCancelled) ++
      works.flatMap ClientConnection.Work.calls }

def transferred (connection : Nat) (transfer : Transfer) (c : Client ρ δ) : Client ρ δ :=
  { c with connections := c.connections.map fun conn =>
      if conn.self = connection then transfer.apply conn else conn }

end Client

/-! ### The system -/

/-- Where the worker is in `run()`. -/
inductive Location
  | notify
  | arm
  | sweep
  | wait
  | woken
  | event (p : Option AsyncOperation) (elapsed : UInt32)
  | cancels
  | shutdown
  | returned
deriving DecidableEq

/-- The client with its worker. `waiter` tells that `m_wake` has the wait operation in its list of waiters, `completed`
that the operation is among the completed ones of the controller; `posting` counts the threads about to post, and
`failed` tells that something undefined has happened. -/
structure System (ρ δ : Type) where
  client : Client ρ δ
  value : UInt32
  waiter : Bool
  completed : Bool
  wakeActive : Bool
  location : Location
  posting : Nat
  failed : Bool

/-- The steps of the system: calls from other threads, then the steps of the worker. -/
inductive Act (ρ : Type)
  | addNewConnection (name : Name) (scheme : Bytes)
  | addNewRequest (data : ρ)
  | cancelRequest (id : UInt32)
  | setNewConnectionProvider
  | stop
  | cancelRequestsByTarget (name : Name) (scheme : Bytes) (reason : FailureReason) (message : Bytes)
  | getUnsatisfiedTarget
  | post
  | requestNewConnection
  | waitAsync
  | sweep
  | wake
  | finish (connection : Nat) (transfer : Transfer) (elapsed : UInt32)
  | timeout (elapsed : UInt32)
  | checkStop
  | processConnections
  | processCancels
  | cancelEverything

namespace System

variable {ρ δ : Type}

def create : System ρ δ := ⟨.create, 0, false, false, false, .notify, 0, false⟩

def post (s : System ρ δ) : System ρ δ :=
  if s.waiter then { s with waiter := false, completed := true } else { s with value := s.value + 1 }

/-- `m_wake.waitAsync(ctl, wakeOp)`. -/
def waitAsync (s : System ρ δ) : System ρ δ :=
  if s.value = 0 then { s with waiter := true, wakeActive := true }
  else { s with value := s.value - 1, completed := true, wakeActive := true }

/-- A critical section, which may fail. -/
def locked (s : System ρ δ) (c : Option (Client ρ δ)) (next : System ρ δ → System ρ δ) : System ρ δ :=
  match c with
  | none => { s with failed := true }
  | some c => next { s with client := c }

/-- The caller has left the critical section and posts later. -/
def postLater (s : System ρ δ) : System ρ δ := { s with posting := s.posting + 1 }

def goto (location : Location) (s : System ρ δ) : System ρ δ := { s with location := location }

def fromLocation (s : System ρ δ) (location : Location) (s' : System ρ δ) : Option (System ρ δ) :=
  if s.location = location then some s' else none

variable [RequestClass ρ] [InflateClass δ]

def stepRunning (s : System ρ δ) : Act ρ → Option (System ρ δ)
  | .addNewConnection name scheme => some { s with client := s.client.addNewConnection name scheme }.postLater
  | .addNewRequest data => some { s with client := s.client.addNewRequest data }.postLater
  | .cancelRequest id =>
    match s.client.cancelRequest id with
    | none => some { s with failed := true }
    | some (deferred, c) => some (if deferred then { s with client := c }.post else { s with client := c })
  | .setNewConnectionProvider => some { s with client := s.client.setNewConnectionProvider }
  | .stop => some { s with client := { s.client with stop := true } }.postLater
  | .cancelRequestsByTarget name scheme reason message =>
    some (s.locked (s.client.cancelRequestsByTarget name scheme reason message) id)
  | .getUnsatisfiedTarget => some (s.locked (s.client.getUnsatisfiedTarget.map fun _ => s.client) id)
  | .post => if s.posting = 0 then none else some { s with posting := s.posting - 1 }.post
  | .requestNewConnection => s.fromLocation .notify ({ s with client := s.client.requestNewConnection }.goto .arm)
  | .waitAsync => s.fromLocation .arm ((if s.wakeActive then s else s.waitAsync).goto .sweep)
  | .sweep => s.fromLocation .sweep (s.locked (s.client.processConnections none 0) (goto .wait))
  | .wake => if s.completed then s.fromLocation .wait ({ s with completed := false }.goto .woken) else none
  | .finish connection transfer elapsed =>
    if s.client.connections.any fun conn => conn.self = connection ∧ transfer.fits conn then
      s.fromLocation .wait ({ s with client := s.client.transferred connection transfer }.goto
        (.event (some ⟨connection, transfer.kind⟩) elapsed))
    else none
  | .timeout elapsed => s.fromLocation .wait (s.goto (.event none elapsed))
  | .checkStop => s.fromLocation .woken (s.goto (if s.client.stop then .shutdown else .cancels))
  | .processConnections =>
    match s.location with
    | .event p elapsed => some (s.locked (s.client.processConnections p elapsed) (goto .notify))
    | _ => none
  | .processCancels =>
    s.fromLocation .cancels (s.locked s.client.processCancels fun s => { s with wakeActive := false }.goto .notify)
  | .cancelEverything => s.fromLocation .shutdown ({ s with client := s.client.cancelEverything }.goto .returned)

def step (s : System ρ δ) (a : Act ρ) : Option (System ρ δ) := if s.failed then none else s.stepRunning a

end System

end Afl.Net.Http
