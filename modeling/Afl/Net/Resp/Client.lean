import Afl.Io.Resp.Chunks
import Afl.Io.Resp.Writer
import Afl.Lib.Exec

/-!
# The RESP client

`afl/net/resp/client.cpp` against every server. `m_socket` is modelled by the packets that are still to be received on
it and by whether the server has closed it. A script says how each `connect` and each send of a call ends, and what the
server answers an accepted command.

The members `m_parser` and `m_input` outlive the socket they were filled from. Each successful connect and each accepted
command is recorded with the client as it was before, and `calls_attributed` says under which condition on these states
no reply is misattributed.
-/

namespace Afl.Net.Resp

open Feed Io.Resp Exec

inductive Mode
  | always
  | once
  | never
deriving DecidableEq

/-- What the server sends for a command it has received, cut into packets, and whether it then closes the
connection. A connection that stays open has got one complete reply; before a close, everything is possible. -/
structure Answer where
  packets : List Bytes
  close : Bool
  hpackets : [] ∉ packets
  hreply : close = false → ∃ v, run (feed false) .root packets.flatten = .done v []

/-- How a send ends. -/
inductive Send
  | throws (message : Bytes)
  | accepted (answer : Answer)

/-- How `m_stack.connect` ends. -/
inductive Connect
  | throws (message : Bytes)
  | connected

/-- The members of the client. `pending` and `closed` describe `m_socket`. -/
structure Client where
  socketName : Bytes
  mode : Mode
  parser : State
  input : Bytes
  pending : List Bytes
  closed : Bool

/-- What a call did on the network, with the client as it was before. -/
inductive Event
  | connected (before : Client)
  | sent (request : Bytes) (before : Client) (answer : Answer)

/-- The client during a call, the script of the network, and the record of the call. -/
structure World where
  client : Client
  connects : List Connect
  sends : List Send
  events : List Event

/-- Why a computation does not return a value. Only `thrown` can be caught; `blocked` is a receive that no data
and no close ever ends. -/
inductive Stop
  | thrown (e : Exception)
  | blocked
  | outOfFuel

/-! ### The code -/

/-- `m_socket = m_stack.connect(...)`. When the script is used up, the network is down. -/
def connect : Exec World Stop Unit :=
  act fun w =>
    match w.connects with
    | [] => (.error (.thrown (.runtimeError [])), w)
    | .throws message :: connects => (.error (.thrown (.runtimeError message)), { w with connects := connects })
    | .connected :: connects =>
      (.ok (), { w with
        connects := connects
        client := { w.client with pending := [], closed := false }
        events := w.events ++ [.connected w.client] })

/-- The loop of `reconnect`, with the number of attempts that are left. -/
def reconnectLoop : Nat → Exec World Stop Unit
  | 0 => throw .outOfFuel
  | i + 1 =>
    catching connect fun e =>
      match e with
      | .thrown _ => if i = 0 then throw e else reconnectLoop i
      | _ => throw e

def reconnect : Exec World Stop Unit := reconnectLoop 15

def Client.deliver (c : Client) (answer : Answer) : Client :=
  if c.closed then c else { c with pending := c.pending ++ answer.packets, closed := answer.close }

def sendCommand (command : Segment) : Exec World Stop Unit :=
  act fun w =>
    match w.sends with
    | [] => (.error (.thrown (.runtimeError [])), w)
    | .throws message :: sends => (.error (.thrown (.runtimeError message)), { w with sends := sends })
    | .accepted answer :: sends =>
      (.ok (), { w with
        sends := sends
        client := w.client.deliver answer
        events := w.events ++ [.sent (Writer.visitSegment command) w.client answer] })

/-- `m_socket->receive(...)`: the next packet, nothing if the other side has closed. -/
def receive : Exec World Stop Bytes :=
  act fun w =>
    match w.client.pending with
    | [] => if w.client.closed then (.ok [], w) else (.error .blocked, w)
    | packet :: pending => (.ok packet, { w with client := { w.client with pending := pending } })

/-- The first half of the loop of `readResponse`: read some input data. -/
def fillInput : Exec World Stop Unit := do
  let w ← get
  if w.client.input = [] then do
    let packet ← receive
    if packet = [] then throw (.thrown (.fileTooShort w.client.socketName))
    else modify fun w => { w with client := { w.client with input := packet } }
  else pure ()

def result (socketName : Bytes) : Value → Except Stop Value
  | .error _ err => .error (.thrown (.remoteError socketName err))
  | v => .ok v

def World.setParser (w : World) (parser : State) (input : Bytes) : World :=
  { w with client := { w.client with parser := parser, input := input } }

def parseInput (again : Exec World Stop Value) : Exec World Stop Value := do
  let w ← get
  match Parser.handleData false w.client.parser w.client.input with
  | .more parser rest => do
    modify fun w => w.setParser parser rest
    again
  | .done v rest => act fun w => (result w.client.socketName v, w.setParser .root rest)
  | .fail parser rest => act fun w => (.error (.thrown syntaxError), w.setParser parser rest)

def readLoop : Nat → Exec World Stop Value
  | 0 => throw .outOfFuel
  | fuel + 1 => do
    fillInput
    parseInput (readLoop fuel)

/-- Every turn of the loop uses up the input or a packet, and one more meets the end of the file. -/
def readResponse : Exec World Stop Value := do
  let w ← get
  readLoop (w.client.pending.length + 2)

/-- Try again on a new connection, unless the mode forbids it. -/
def retry {α : Type} (e : Stop) (again : Exec World Stop α) : Exec World Stop α := do
  let w ← get
  if w.client.mode = .never then throw e
  else do
    reconnect
    again

/-- `Once` permits a reconnect up to the first successful request. -/
def Client.afterCall (c : Client) : Client := if c.mode = .once then { c with mode := .never } else c

def call (command : Segment) : Exec World Stop Value := do
  catching (sendCommand command) fun e =>
    match e with
    | .thrown _ => retry e (sendCommand command)
    | _ => throw e
  let v ← catching readResponse fun e =>
    match e with
    | .thrown (.remoteError _ _) => throw e
    | .thrown _ => retry e do
        sendCommand command
        readResponse
    | _ => throw e
  modify fun w => { w with client := w.client.afterCall }
  pure v

/-- One use of the client: a call with the script of the network during it, or a change of the mode. -/
inductive Action
  | call (command : Segment) (connects : List Connect) (sends : List Send)
  | setReconnectMode (mode : Mode)

/-- What a call did and how it ended. -/
structure CallRecord where
  command : Segment
  events : List Event
  outcome : Except Stop Value

/-- A freshly constructed client, on a connection of its own. -/
def Client.create (socketName : Bytes) : Client := ⟨socketName, .always, .root, [], [], false⟩

/-- Whether a call comes to an end. -/
def returns : Except Stop Value → Bool
  | .error .blocked => false
  | _ => true

/-- The calls of a run. A call that never returns keeps the mutex, so it is the last one. -/
def calls : Client → List Action → List CallRecord
  | _, [] => []
  | c, .setReconnectMode mode :: actions => calls { c with mode := mode } actions
  | c, .call command connects sends :: actions =>
    let (outcome, w) := exec (call command) ⟨c, connects, sends, []⟩
    ⟨command, w.events, outcome⟩ :: if returns outcome then calls w.client actions else []

end Afl.Net.Resp
