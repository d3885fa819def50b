import Afl.Io.Resp.Chunks
import Afl.Io.Resp.Writer

/-!
# The RESP protocol handler

`afl/net/resp/protocolhandler.cpp` under the driver of `afl/net/interact.cpp`. The handler parses commands out of
its packets, has them executed, and queues the replies; `interact` sends what `getOperation` asks for, one reply at a
time, until the handler wants to receive or to close.

The replies depend on the stream alone (`commands`). `delivers_iff` says for which cuts into packets they are all sent:
a syntax error sets `Failed`, in which `getOperation` no longer looks at the queue, so replies that the same packet had
queued before are lost.
-/

namespace Afl.Net.Resp

open Feed Io.Resp

/-- A command handler as a state machine: `call` returns a value or throws a `std::exception`. -/
abbrev CommandHandler (σ : Type) := σ → Segment → Except Exception Value × σ

inductive HandlerState
  | idle
  | sending
  | failed
deriving DecidableEq

/-- The members of the protocol handler, with the state of the command handler. `data` holds the contents of
the sinks in `m_data`. -/
structure ProtocolHandler (σ : Type) where
  state : HandlerState
  handler : σ
  data : List Bytes
  parser : State

structure Operation where
  dataToSend : Bytes
  close : Bool

variable {σ : Type}

namespace ProtocolHandler

/-- A freshly constructed handler. Its parser accepts the short form. -/
def create (handler : σ) : ProtocolHandler σ := ⟨.idle, handler, [], .root⟩

def acknowledge (h : ProtocolHandler σ) : ProtocolHandler σ :=
  if h.state = .sending then { h with data := h.data.tail, state := .idle } else h

def getOperation (h : ProtocolHandler σ) : Operation × ProtocolHandler σ :=
  let h := h.acknowledge
  match h.state, h.data with
  | .idle, front :: _ => (⟨front, false⟩, { h with state := .sending })
  | state, _ => (⟨[], state = .failed⟩, h)

/-- The output of `handleNewValue` for one value: only a vector is a command. -/
def reply (call : CommandHandler σ) (handler : σ) : Value → Bytes × σ
  | .vector vv =>
    match call handler vv with
    | (.ok result, handler') => (Writer.visit result, handler')
    | (.error e, handler') => (Writer.sendError (cString e.what), handler')
  | _ => (Writer.sendError (lit "Invalid operation"), handler)

def handleNewValue (call : CommandHandler σ) (h : ProtocolHandler σ) (v : Value) : ProtocolHandler σ :=
  { h with data := h.data ++ [(reply call h.handler v).1], handler := (reply call h.handler v).2 }

/-- The loop of `handleData`; every turn consumes at least one byte. -/
def handleLoop (call : CommandHandler σ) : Nat → ProtocolHandler σ → Bytes → ProtocolHandler σ
  | 0, h, _ => h
  | fuel + 1, h, bytes =>
    if bytes = [] then h
    else
      match Parser.handleData true h.parser bytes with
      | .more parser rest => handleLoop call fuel { h with parser := parser } rest
      | .done v rest => handleLoop call fuel (handleNewValue call { h with parser := .root } v) rest
      | .fail parser _ => { h with parser := parser, state := .failed }

def handleData (call : CommandHandler σ) (h : ProtocolHandler σ) (bytes : Bytes) : ProtocolHandler σ :=
  handleLoop call bytes.length h bytes

end ProtocolHandler

open ProtocolHandler

/-- What `interact` has done when the handler wants to receive or to close. -/
structure Turn (σ : Type) where
  sent : Bytes
  close : Bool
  handler : ProtocolHandler σ

/-- `interact` up to the next receive or close: send what `getOperation` asks for. `none` is out of fuel. -/
def interactTurn : Nat → ProtocolHandler σ → Option (Turn σ)
  | 0, _ => none
  | fuel + 1, h =>
    let (op, h) := h.getOperation
    if op.dataToSend ≠ [] then
      match interactTurn fuel h with
      | none => none
      | some t => some { t with sent := op.dataToSend ++ t.sent }
    else some ⟨[], op.close, h⟩

/-- `interact` on a peer that sends the given packets: the bytes sent to it, and whether the handler asked to
close. A turn makes one call for each queued reply and one more. -/
def interact (call : CommandHandler σ) (h : ProtocolHandler σ) : List Bytes → Option (Bytes × Bool)
  | [] => (interactTurn (h.data.length + 1) h).map fun t => (t.sent, t.close)
  | packet :: packets =>
    match interactTurn (h.data.length + 1) h with
    | none => none
    | some t =>
      if t.close then some (t.sent, true)
      else
        match interact call (handleData call t.handler packet) packets with
        | none => none
        | some (sent, close) => some (t.sent ++ sent, close)

/-! ### What the stream says -/

/-- The commands of a byte stream up to the first syntax error, and the state of the parser after the stream
unless there was one. -/
def commandsFrom (s : State) (bytes : Bytes) : List Value × Option State := stream (feed true) .root s bytes

def commands (bytes : Bytes) : List Value × Option State := commandsFrom .root bytes

def replies (call : CommandHandler σ) : σ → List Value → List Bytes
  | _, [] => []
  | handler, v :: vs => (reply call handler v).1 :: replies call (reply call handler v).2 vs

def handlerAfter (call : CommandHandler σ) : σ → List Value → σ
  | handler, [] => handler
  | handler, v :: vs => handlerAfter call (reply call handler v).2 vs

/-- Exactly the replies to all commands before the first syntax error are sent, and the connection is closed if
and only if there was one. -/
def Delivers (call : CommandHandler σ) (handler : σ) (packets : List Bytes) : Prop :=
  interact call (create handler) packets =
    some ((replies call handler (commands packets.flatten).1).flatten, (commands packets.flatten).2.isNone)

instance (call : CommandHandler σ) (handler : σ) (packets : List Bytes) :
    Decidable (Delivers call handler packets) := inferInstanceAs (Decidable (_ = _))

/-- The packet with the first syntax error, if there is one, completes no command before the error. -/
def ErrorAlone : State → List Bytes → Prop
  | _, [] => True
  | s, packet :: packets =>
    match commandsFrom s packet with
    | (vs, none) => vs = []
    | (_, some s') => ErrorAlone s' packets

theorem replies_append (call : CommandHandler σ) (handler : σ) (vs ws : List Value) :
    replies call handler (vs ++ ws) = replies call handler vs ++ replies call (handlerAfter call handler vs) ws := by
  induction vs generalizing handler with
  | nil => rfl
  | cons v vs ih => simp only [List.cons_append, replies, handlerAfter, ih]

theorem reply_ne_nil (call : CommandHandler σ) (handler : σ) (v : Value) : (reply call handler v).1 ≠ [] := by
  cases v with
  | vector vv =>
    rw [reply]
    rcases call handler vv with ⟨_ | result, handler'⟩
    · exact Writer.sendError_ne_nil _
    · exact Writer.visit_ne_nil _
  | _ => exact Writer.sendError_ne_nil _

theorem nil_notMem_replies (call : CommandHandler σ) (handler : σ) (vs : List Value) :
    [] ∉ replies call handler vs := by
  induction vs generalizing handler with
  | nil => simp [replies]
  | cons v vs ih =>
    rw [replies, List.mem_cons, not_or]
    exact ⟨(reply_ne_nil call handler v).symm, ih _⟩

theorem flatten_replies_eq_nil {call : CommandHandler σ} {handler : σ} {vs : List Value} :
    (replies call handler vs).flatten = [] ↔ vs = [] := by
  rcases vs with _ | ⟨v, vs⟩
  · simp [replies]
  · simp [replies, reply_ne_nil]

/-! ### What the handler does -/

theorem handleLoop_of_some (call : CommandHandler σ) {fuel : Nat} {h : ProtocolHandler σ} {bytes : Bytes}
    {vs : List Value} {s : State} (hfuel : bytes.length ≤ fuel)
    (hs : commandsFrom h.parser bytes = (vs, some s)) :
    handleLoop call fuel h bytes =
      ⟨h.state, handlerAfter call h.handler vs, h.data ++ replies call h.handler vs, s⟩ := by
  induction fuel generalizing h bytes vs with
  | zero =>
    obtain rfl : bytes = [] := List.eq_nil_of_length_eq_zero (by omega)
    cases hs
    simp [handleLoop, handlerAfter, replies]
  | succ fuel ih =>
    rw [handleLoop]
    rcases eq_or_ne bytes [] with rfl | hbytes
    · cases hs
      simp [handlerAfter, replies]
    rw [if_neg hbytes, handleData_eq_run]
    rw [commandsFrom, stream_eq_run] at hs
    rcases hr : run (feed true) h.parser bytes with ⟨p, rest⟩ | ⟨v, rest⟩ | ⟨p, rest⟩ <;> rw [hr] at hs
    · obtain rfl := run_more_rest hr
      cases hs
      exact ih (Nat.zero_le _) rfl
    · simp only [Prod.mk.injEq] at hs
      obtain ⟨rfl, hend⟩ := hs
      have hlen := run_done_length hr
      have hrest : commandsFrom .root rest = ((commandsFrom .root rest).1, some s) := Prod.ext rfl hend
      simp only
      rw [ih (by omega) hrest]
      simp [handleNewValue, handlerAfter, replies, commandsFrom]
    · cases hs

theorem handleLoop_of_none (call : CommandHandler σ) {fuel : Nat} {h : ProtocolHandler σ} {bytes : Bytes}
    (hfuel : bytes.length ≤ fuel) (hs : (commandsFrom h.parser bytes).2 = none) :
    (handleLoop call fuel h bytes).state = .failed := by
  induction fuel generalizing h bytes with
  | zero =>
    obtain rfl : bytes = [] := List.eq_nil_of_length_eq_zero (by omega)
    cases hs
  | succ fuel ih =>
    rw [handleLoop]
    rcases eq_or_ne bytes [] with rfl | hbytes
    · cases hs
    rw [if_neg hbytes, handleData_eq_run]
    rw [commandsFrom, stream_eq_run] at hs
    rcases hr : run (feed true) h.parser bytes with ⟨p, rest⟩ | ⟨v, rest⟩ | ⟨p, rest⟩
    · rw [hr] at hs
      cases hs
    · rw [hr] at hs
      have hlen := run_done_length hr
      exact ih (by omega) hs
    · rfl

theorem interactTurn_failed {h : ProtocolHandler σ} (hfailed : h.state = .failed) (fuel : Nat) :
    interactTurn (fuel + 1) h = some ⟨[], true, h⟩ := by
  have hack : h.acknowledge = h := if_neg (by rw [hfailed]; decide)
  simp [interactTurn, getOperation, hack, hfailed]

theorem interactTurn_sending (handler : σ) (front : Bytes) (data : List Bytes) (s : State) (fuel : Nat) :
    interactTurn fuel ⟨.sending, handler, front :: data, s⟩ = interactTurn fuel ⟨.idle, handler, data, s⟩ := by
  cases fuel <;> rfl

theorem interactTurn_idle (handler : σ) {data : List Bytes} (s : State) (hdata : [] ∉ data) :
    interactTurn (data.length + 1) ⟨.idle, handler, data, s⟩ = some ⟨data.flatten, false, ⟨.idle, handler, [], s⟩⟩ := by
  induction data with
  | nil => rfl
  | cons front data ih =>
    rw [List.mem_cons, not_or] at hdata
    rw [List.length_cons, interactTurn]
    simp only [getOperation, acknowledge, reduceCtorEq, if_false]
    rw [if_pos (Ne.symm hdata.1), interactTurn_sending, ih hdata.2, List.flatten_cons]

theorem interact_cons (call : CommandHandler σ) {handler : σ} {s s' : State} {packet : Bytes}
    {vs : List Value} {data : List Bytes} (packets : List Bytes) (hdata : [] ∉ data)
    (hs : commandsFrom s packet = (vs, some s')) :
    interact call ⟨.idle, handler, data, s⟩ (packet :: packets) =
      (interact call ⟨.idle, handlerAfter call handler vs, replies call handler vs, s'⟩ packets).map
        fun r => (data.flatten ++ r.1, r.2) := by
  rw [interact, interactTurn_idle handler s hdata]
  simp only [Bool.false_eq_true, if_false]
  have hpacket : handleData call ⟨.idle, handler, [], s⟩ packet =
      ⟨.idle, handlerAfter call handler vs, replies call handler vs, s'⟩ := by
    rw [handleData, handleLoop_of_some call le_rfl hs, List.nil_append]
  rw [hpacket]
  rcases interact call ⟨.idle, handlerAfter call handler vs, replies call handler vs, s'⟩ packets with _ | r <;> rfl

theorem interact_cons_error (call : CommandHandler σ) {handler : σ} {s : State} {packet : Bytes}
    {data : List Bytes} (packets : List Bytes) (hdata : [] ∉ data) (hs : (commandsFrom s packet).2 = none) :
    interact call ⟨.idle, handler, data, s⟩ (packet :: packets) = some (data.flatten, true) := by
  rw [interact, interactTurn_idle handler s hdata]
  simp only [Bool.false_eq_true, if_false]
  have hfailed : (handleData call ⟨.idle, handler, [], s⟩ packet).state = .failed :=
    handleLoop_of_none call le_rfl hs
  have hturn := interactTurn_failed hfailed (handleData call ⟨.idle, handler, [], s⟩ packet).data.length
  cases packets with
  | nil => rw [interact, hturn]; simp
  | cons p ps => rw [interact, hturn]; simp

theorem interact_iff (call : CommandHandler σ) (handler : σ) {data : List Bytes} (s : State) (packets : List Bytes)
    (hdata : [] ∉ data) :
    interact call ⟨.idle, handler, data, s⟩ packets =
        some (data.flatten ++ (replies call handler (commandsFrom s packets.flatten).1).flatten,
          (commandsFrom s packets.flatten).2.isNone) ↔
      ErrorAlone s packets := by
  induction packets generalizing handler data s with
  | nil =>
    simp [interact, interactTurn_idle handler s hdata, commandsFrom, stream, replies, ErrorAlone]
  | cons packet packets ih =>
    have happend := @stream_append _ _ _ (feed true) s .root packet packets.flatten
    rw [← commandsFrom, ← commandsFrom] at happend
    rw [List.flatten_cons, happend, ErrorAlone]
    rcases hs : commandsFrom s packet with ⟨vs, _ | s'⟩
    · rw [interact_cons_error call packets hdata (by rw [hs])]
      simp only [Option.isNone_none, Option.some.injEq, Prod.mk.injEq, and_true]
      rw [List.self_eq_append_right, flatten_replies_eq_nil]
    · have hrest := ih (handlerAfter call handler vs) s' (nil_notMem_replies call handler vs)
      rw [interact_cons call packets hdata hs]
      simp only [replies_append, List.flatten_append, ← hrest]
      rcases interact call ⟨.idle, handlerAfter call handler vs, replies call handler vs, s'⟩ packets with
        _ | ⟨sent, close⟩
      · simp
      · simp [commandsFrom]

/-- **Delivery.** For every command handler and every cut of a stream into packets, all replies to the commands
before the first syntax error are sent, and the connection is closed on a syntax error only, exactly when the
packet with the syntax error completes no command before it. -/
theorem delivers_iff (call : CommandHandler σ) (handler : σ) (packets : List Bytes) :
    Delivers call handler packets ↔ ErrorAlone .root packets := by
  have h := interact_iff call handler .root packets (List.not_mem_nil (a := []))
  rw [List.flatten_nil, List.nil_append] at h
  exact h

/-- A command handler that answers every command with `PONG`. -/
def pong : CommandHandler Unit := fun _ _ => (.ok (.string (lit "PONG")), ())

/-- One command and an invalid byte: sent in two packets the command is answered, sent in one it is not. -/
theorem packet_boundary_loses_reply :
    Delivers pong () [lit "PING\n", lit "?"] ∧ ¬Delivers pong () [lit "PING\n?"] := by
  decide

end Afl.Net.Resp
