import Afl.Async.Transfer
import Afl.Lib.Compact
import Afl.Lib.Run
import Mathlib.Data.List.Nodup

/-!
# The network server

`afl/net/server.cpp`: one thread drives the protocol handlers of all connections. An iteration of the main loop
handles what `Controller::wait` returns: a completed operation of a connection, a new connection, or a timeout. The
main loop catches the exceptions of handlers and sockets. Logging, the stop signal and the failures of `accept` are
left out.
-/

set_option linter.unusedSectionVars false

namespace Afl.Net.Server

open Afl.Async

def INFINITE_TIMEOUT : UInt32 := 0xFFFFFFFF

structure Operation where
  dataToSend : Bytes
  close : Bool
  timeToWait : UInt32

/-- Do nothing, wait indefinitely. -/
def Operation.preset : Operation := ⟨[], false, INFINITE_TIMEOUT⟩

/-- A protocol handler, as a state machine. Every callback tells whether it returns; otherwise it throws. -/
structure ProtocolHandler (H : Type) where
  getOperation : Operation → H → H × Operation × Bool
  advanceTime : UInt32 → H → H × Bool
  handleData : Bytes → H → H × Bool
  handleSendTimeout : Bytes → H → H × Bool
  handleConnectionClose : H → H × Bool

inductive State
  | idle
  | sending
  | receiving
  | closing
deriving DecidableEq

variable {ι H : Type} [DecidableEq ι]

/-- `ConnectionState`. -/
structure Connection (ι H : Type) where
  id : ι
  state : State
  handler : H
  phOperation : Operation
  sendOperation : SendOperation Unit
  receiveOperation : ReceiveOperation Unit
  startTime : UInt32
  /-- The send operation is submitted and neither returned nor cancelled. The code does not keep this. -/
  sendPending : Bool
  /-- The same for the receive operation. -/
  receivePending : Bool

/-- `buffer`. What earlier receives have left there is not read again. -/
def buffer : Bytes := List.replicate 4096 0

/-- What a function did to a connection: whether it set `m_closeSignal`, and whether it threw. -/
structure Result (ι H : Type) where
  connection : Connection ι H
  closes : Bool
  throws : Bool

namespace Connection

def new (id : ι) (handler : H) : Connection ι H where
  id := id
  state := .idle
  handler := handler
  phOperation := .preset
  sendOperation := .new
  receiveOperation := .new
  startTime := 0
  sendPending := false
  receivePending := false

def returned (c : Connection ι H) : Result ι H := ⟨c, false, false⟩

def thrown (c : Connection ι H) : Result ι H := ⟨c, false, true⟩

/-- `state.state = ConnectionState::Closing; m_closeSignal = true;`. -/
def closing (c : Connection ι H) : Result ι H := ⟨{ c with state := .closing }, true, false⟩

def callback (c : Connection ι H) (f : H → H × Bool) (next : Connection ι H → Result ι H) : Result ι H :=
  if (f c.handler).2 then next { c with handler := (f c.handler).1 } else thrown { c with handler := (f c.handler).1 }

/-- `socket->sendAsync(ctl, sendOperation)`. -/
def sendAsync (refuses : Bool) (c : Connection ι H) (next : Connection ι H → Result ι H) : Result ι H :=
  if refuses then thrown c
  else next { c with sendOperation := c.sendOperation.setController (), sendPending := true }

/-- `socket->receiveAsync(ctl, receiveOperation)`. -/
def receiveAsync (refuses : Bool) (c : Connection ι H) (next : Connection ι H → Result ι H) : Result ι H :=
  if refuses then thrown c
  else next { c with receiveOperation := c.receiveOperation.setController (), receivePending := true }

end Connection

/-- What the outside does while a connection is handled: whether the socket throws, and what the clock says. -/
structure Outside where
  refuses : Bool
  tick : UInt32

section Handling

variable (ph : ProtocolHandler H) (out : Outside)

def startConnection (c : Connection ι H) : Result ι H :=
  let r := ph.getOperation .preset c.handler
  let c := { c with handler := r.1, phOperation := r.2.1 }
  if r.2.2 = false then c.thrown
  else if c.phOperation.dataToSend ≠ [] then
    Connection.sendAsync out.refuses { c with sendOperation := c.sendOperation.setData c.phOperation.dataToSend } fun c =>
      Connection.returned { c with startTime := out.tick, state := .sending }
  else if c.phOperation.close then c.callback ph.handleConnectionClose Connection.closing
  else
    Connection.receiveAsync out.refuses { c with receiveOperation := c.receiveOperation.setData buffer } fun c =>
      Connection.returned { c with startTime := out.tick, state := .receiving }

/-- A pointer to an operation of a connection. -/
inductive Pointer (ι : Type)
  | send (id : ι)
  | receive (id : ι)
deriving DecidableEq

/-- The part of `handleConnectionEvent` for the connection's own send operation. -/
def handleSent (c : Connection ι H) : Result ι H :=
  if c.sendOperation.getUnsentBytes = [] then
    c.callback (ph.advanceTime (out.tick - c.startTime)) fun c => startConnection ph out { c with state := .idle }
  else if c.sendOperation.numSentBytes = 0 then c.callback ph.handleConnectionClose Connection.closing
  else
    let unsent := c.sendOperation.getUnsentBytes
    Connection.sendAsync out.refuses
      { c with
        phOperation := { c.phOperation with dataToSend := unsent }
        sendOperation := c.sendOperation.setData unsent } fun c =>
      Connection.returned { c with state := .sending }

/-- The part of `handleConnectionEvent` for the connection's own receive operation. -/
def handleReceived (c : Connection ι H) : Result ι H :=
  c.callback (ph.advanceTime (out.tick - c.startTime)) fun c =>
    if c.receiveOperation.numReceivedBytes = 0 then c.callback ph.handleConnectionClose Connection.closing
    else
      c.callback (ph.handleData c.receiveOperation.getReceivedBytes) fun c =>
        startConnection ph out { c with state := .idle }

def handleConnectionEvent (c : Connection ι H) (op : Pointer ι) : Option (Result ι H) :=
  match c.state with
  | .idle | .closing => none
  | .sending => if op = .send c.id then some (handleSent ph out c) else none
  | .receiving => if op = .receive c.id then some (handleReceived ph out c) else none

/-- The operation has waited for as long as the handler wanted. -/
def Connection.timedOut (c : Connection ι H) (now : UInt32) : Bool :=
  c.phOperation.timeToWait ≠ INFINITE_TIMEOUT ∧ c.phOperation.timeToWait ≤ now - c.startTime

def handleConnectionTime (now : UInt32) (c : Connection ι H) : Result ι H :=
  match c.state with
  | .idle | .closing => c.returned
  | .sending =>
    if c.timedOut now then
      c.callback (ph.advanceTime (now - c.startTime)) fun c =>
        c.callback (ph.handleSendTimeout c.phOperation.dataToSend) fun c =>
          startConnection ph out { c with sendPending := false, state := .idle }
    else c.returned
  | .receiving =>
    if c.timedOut now then
      c.callback (ph.advanceTime (now - c.startTime)) fun c =>
        startConnection ph out { c with receivePending := false, state := .idle }
    else c.returned

end Handling

/-! ### The main loop -/

/-- The part of `run`'s state that concerns connections. -/
structure RunState (ι H : Type) where
  connections : List (Option (Connection ι H))
  /-- `m_closeSignal`. -/
  closeSignal : Bool
  /-- The connections that were dropped. The code deletes them. -/
  dropped : List (Connection ι H)

/-- What `Controller::wait` returns. -/
inductive Event (ι H : Type)
  | timeout (now : UInt32)
  /-- The factory has made a handler for the new connection. -/
  | accept (id : ι) (handler : H)
  /-- The send operation completes after as many bytes, or all it has. -/
  | sent (id : ι) (n : Nat)
  /-- The receive operation completes with these bytes, or as many as fit. -/
  | received (id : ι) (bytes : Bytes)

/-- An iteration of the main loop: the event, and what the outside does for each connection. -/
structure Iteration (ι H : Type) where
  event : Event ι H
  outside : ι → Outside

/-- The bytes that have been sent when the operation is returned. -/
def Connection.complete (c : Connection ι H) : Event ι H → Connection ι H
  | .sent id n =>
    if c.id = id then
      { c with
        sendOperation := c.sendOperation.addSentBytes (min n c.sendOperation.getUnsentBytes.length) (Nat.min_le_right _ _)
        sendPending := false }
    else c
  | .received id bytes =>
    if c.id = id then
      { c with
        receiveOperation := c.receiveOperation.copyFrom (SendOperation.new.setData bytes)
        receivePending := false }
    else c
  | .timeout _ | .accept _ _ => c

/-- A loop over all connections, with the exceptions caught in it. A null pointer would be a crash. -/
def timerLoop (f : Connection ι H → Result ι H) (connections : List (Option (Connection ι H))) :
    List (Option (Connection ι H)) × Bool :=
  (connections.map (Option.map fun c => (f c).connection), connections.any fun e => e.elim false fun c => (f c).closes)

/-- The loop that looks for the connection of an operation and stops there, unless there was an exception. -/
def eventLoop (f : Connection ι H → Option (Result ι H)) :
    List (Option (Connection ι H)) → List (Option (Connection ι H)) × Bool
  | [] => ([], false)
  | none :: connections => (none :: (eventLoop f connections).1, (eventLoop f connections).2)
  | some c :: connections =>
    match f c with
    | none => (some c :: (eventLoop f connections).1, (eventLoop f connections).2)
    | some r =>
      if r.throws then (some r.connection :: (eventLoop f connections).1, r.closes || (eventLoop f connections).2)
      else (some r.connection :: connections, r.closes)

/-- What an event does to the connections, and whether the close signal is set. -/
def handleEvent (ph : ProtocolHandler H) (connections : List (Option (Connection ι H))) (it : Iteration ι H) :
    List (Option (Connection ι H)) × Bool :=
  let returned := connections.map (Option.map fun c => c.complete it.event)
  match it.event with
  | .timeout now => timerLoop (fun c => handleConnectionTime ph (it.outside c.id) now c) returned
  | .accept id handler =>
    let r := startConnection ph (it.outside id) (Connection.new id handler)
    (returned ++ [some r.connection], r.closes)
  | .sent id _ => eventLoop (fun c => handleConnectionEvent ph (it.outside c.id) c (.send id)) returned
  | .received id _ => eventLoop (fun c => handleConnectionEvent ph (it.outside c.id) c (.receive id)) returned

namespace RunState

def new : RunState ι H := ⟨[], false, []⟩

/-- The last part of an iteration: closing connections are dropped. -/
def processClosing (s : RunState ι H) : RunState ι H :=
  if s.closeSignal then
    { connections := Compact.compact (fun c => c.state = .closing) s.connections
      closeSignal := false
      dropped := s.dropped ++ (s.connections.filterMap id).filter fun c => c.state = .closing }
  else s

def iterate (ph : ProtocolHandler H) (s : RunState ι H) (it : Iteration ι H) : RunState ι H :=
  let r := handleEvent ph s.connections it
  processClosing { s with connections := r.1, closeSignal := s.closeSignal || r.2 }

/-- The event can happen: a new connection is a new object, and only a submitted operation completes. -/
def possible (s : RunState ι H) : Event ι H → Bool
  | .timeout _ => true
  | .accept id _ => s.connections.all fun e => e.all fun c => c.id ≠ id
  | .sent id _ => s.connections.any fun e => e.any fun c => c.id = id ∧ c.sendPending
  | .received id _ => s.connections.any fun e => e.any fun c => c.id = id ∧ c.receivePending

def step (ph : ProtocolHandler H) (s : RunState ι H) (it : Iteration ι H) : Option (RunState ι H) :=
  if s.possible it.event then some (s.iterate ph it) else none

end RunState

end Afl.Net.Server
