import Afl.Net.Server.Session

/-!
# Two drivers of one contract

`interact` on one object and `Server` on one connection are sessions, each with its own policy. They drive a handler
alike exactly in the sessions in which the policies do not matter.
-/

namespace Afl.Net.Server

open Afl.Async

variable {H : Type}

/-! ### Driving one handler synchronously

`afl/net/interact.cpp`. The function blocks in `send` and `receive`; its state is what it knows there. The handler may
throw, which ends the function. -/

/-- Where the function is. -/
inductive Place
  | send (dataToSend : Bytes) (timeToWait : UInt32)
  | receive (timeToWait : UInt32)
  | returned
  | thrown

structure Interaction (H : Type) where
  handler : H
  /-- Last time the function has talked to the handler. -/
  t : UInt32
  place : Place

namespace Interaction

variable (ph : ProtocolHandler H)

/-- A callback, and what follows if it does not throw. -/
def callback (s : Interaction H) (f : H → H × Bool) (next : Interaction H → Interaction H) : Interaction H :=
  if (f s.handler).2 then next { s with handler := (f s.handler).1 }
  else { s with handler := (f s.handler).1, place := .thrown }

/-- `advanceTime(t, handler)`. -/
def advanceTime (tick : UInt32) (s : Interaction H) (next : Interaction H → Interaction H) : Interaction H :=
  s.callback (ph.advanceTime (tick - s.t)) fun s => next { s with t := tick }

/-- The beginning of a turn of the main loop, up to where it blocks. -/
def turn (s : Interaction H) : Interaction H :=
  let r := ph.getOperation .preset s.handler
  let s := { s with handler := r.1 }
  let op := r.2.1
  if r.2.2 = false then { s with place := .thrown }
  else if op.dataToSend ≠ [] then { s with place := .send op.dataToSend op.timeToWait }
  else if op.close then s.callback ph.handleConnectionClose fun s => { s with place := .returned }
  else { s with place := .receive op.timeToWait }

def start (h : H) (tick : UInt32) : Interaction H := turn ph ⟨h, tick, .returned⟩

def transmitted (dataToSend : Bytes) (n : Nat) : SendOperation Unit :=
  let tx : SendOperation Unit := SendOperation.new.setData dataToSend
  tx.addSentBytes (min n tx.getUnsentBytes.length) (Nat.min_le_right _ _)

def delivered (bytes : Bytes) : ReceiveOperation Unit :=
  let rx : ReceiveOperation Unit := ReceiveOperation.new.setData buffer
  rx.copyFrom (SendOperation.new.setData bytes)

/-- The function goes on when the call it is blocked in returns. -/
def resume (s : Interaction H) (o : Outcome) : Interaction H :=
  match s.place with
  | .returned | .thrown => s
  | .send dataToSend timeToWait =>
    match o.send with
    | .timesOut n =>
      if timeToWait = INFINITE_TIMEOUT then s
      else
        advanceTime ph o.tick s fun s =>
          s.callback (ph.handleSendTimeout (transmitted dataToSend n).getUnsentBytes) (turn ph)
    | .completes n =>
      let dataToSend := (transmitted dataToSend n).getUnsentBytes
      if dataToSend = [] then advanceTime ph o.tick s (turn ph) else { s with place := .send dataToSend timeToWait }
  | .receive timeToWait =>
    match o.receive with
    | .timesOut => if timeToWait = INFINITE_TIMEOUT then s else advanceTime ph o.tick s (turn ph)
    | .completes bytes =>
      advanceTime ph o.tick s fun s =>
        if (delivered bytes).numReceivedBytes = 0 then
          s.callback ph.handleConnectionClose fun s => { s with place := .returned }
        else s.callback (ph.handleData (delivered bytes).getReceivedBytes) (turn ph)

/-- `interact`, with what becomes of the first operations. -/
def interact (h : H) (tick : UInt32) (os : List Outcome) : Interaction H := os.foldl (resume ph) (start ph h tick)

end Interaction

/-! ### `interact` in a session -/

variable {x : Session H}

namespace Interaction

/-- Where the function is in a session. -/
def placeOf : Pending → Place
  | .send dataToSend timeToWait => .send dataToSend timeToWait
  | .receive timeToWait => .receive timeToWait
  | .closed => .returned

/-- The function is where the session is. -/
def Follows (s : Interaction (Recorded H)) (x : Session H) : Prop := s.handler = x.handler ∧ s.place = placeOf x.pending

variable (m : Machine H)

theorem follows_turn (s : Interaction (Recorded H)) : Follows (turn m.recorder s) (Session.next m s.handler) := by
  rw [turn, Session.next]
  simp only [Machine.recorder, callback, Bool.true_eq_false, if_false, if_true]
  split_ifs
  · exact ⟨rfl, rfl⟩
  · exact ⟨rfl, rfl⟩
  · exact ⟨rfl, rfl⟩

theorem getUnsentBytes_transmitted (dataToSend : Bytes) (n : Nat) :
    (transmitted dataToSend n).getUnsentBytes = dataToSend.drop n := by
  show dataToSend.drop (0 + min n (dataToSend.drop 0).length) = dataToSend.drop n
  rw [Nat.zero_add, List.drop_zero]
  rcases Nat.le_total n dataToSend.length with h | h
  · rw [Nat.min_eq_left h]
  · rw [Nat.min_eq_right h, List.drop_length, List.drop_of_length_le h]

theorem received_of_arrived {rx : ReceiveOperation Unit} (hdata : rx.data = buffer) (hzero : rx.numReceivedBytes = 0)
    (bytes : Bytes) :
    (rx.copyFrom (SendOperation.new.setData bytes)).getReceivedBytes = bytes.take buffer.length ∧
      ((rx.copyFrom (SendOperation.new.setData bytes)).numReceivedBytes = 0 ↔ bytes = []) := by
  have hbytes : (rx.copyFrom (SendOperation.new.setData bytes)).getReceivedBytes = bytes.take buffer.length := by
    rw [ReceiveOperation.getReceivedBytes_copyFrom]
    show rx.data.take rx.numReceivedBytes ++
      (bytes.drop 0).take (min (rx.data.drop rx.numReceivedBytes).length (bytes.drop 0).length) = _
    rw [hdata, hzero, List.take_zero, List.nil_append, List.drop_zero, List.drop_zero]
    rcases Nat.le_total buffer.length bytes.length with h | h
    · rw [Nat.min_eq_left h]
    · rw [Nat.min_eq_right h, List.take_length, List.take_of_length_le h]
  have hlength := (rx.copyFrom (SendOperation.new.setData bytes)).length_getReceivedBytes
  have hbuffer : buffer.length = 4096 := List.length_replicate
  rw [hbytes, List.length_take, hbuffer] at hlength
  refine ⟨hbytes, ?_⟩
  rw [← List.length_eq_zero_iff]
  omega

theorem advanceTime_recorder (tick : UInt32) (s : Interaction (Recorded H))
    (next : Interaction (Recorded H) → Interaction (Recorded H)) :
    advanceTime m.recorder tick s next = next { s with handler := m.tellTime s.handler, t := tick } := by
  rw [advanceTime, callback]
  exact if_pos rfl

theorem follows_resume {s : Interaction (Recorded H)} (h : Follows s x) (o : Outcome) :
    Follows (resume m.recorder s o) (x.step m .interact o) := by
  obtain ⟨hhandler, hplace⟩ := h
  rw [resume, hplace, Session.step, ← hhandler]
  rcases hpending : x.pending with ⟨dataToSend, timeToWait⟩ | timeToWait | _
  · simp only [placeOf]
    rcases o.send with n | n
    · simp only [getUnsentBytes_transmitted, List.drop_eq_nil_iff]
      split_ifs with hall hnone
      · rw [advanceTime_recorder]
        exact follows_turn m _
      · cases hnone.2
      · exact ⟨rfl, rfl⟩
    · simp only
      split_ifs with hinfinite hcounts
      · exact ⟨hhandler, by rw [hplace, hpending]⟩
      · rw [advanceTime_recorder, getUnsentBytes_transmitted]
        exact follows_turn m _
      · exact absurd rfl hcounts
  · simp only [placeOf]
    rcases o.receive with bytes | _
    · obtain ⟨hbytes, hnone⟩ : (delivered bytes).getReceivedBytes = bytes.take buffer.length ∧
          ((delivered bytes).numReceivedBytes = 0 ↔ bytes = []) := received_of_arrived rfl rfl bytes
      simp only [advanceTime_recorder, hbytes, hnone]
      split_ifs
      · exact ⟨rfl, rfl⟩
      · exact follows_turn m _
    · simp only
      split_ifs
      · exact ⟨hhandler, by rw [hplace, hpending]⟩
      · rw [advanceTime_recorder]
        exact follows_turn m _
  · rw [hpending] at hplace
    exact ⟨hhandler, by rw [hpending]; exact hplace⟩

theorem follows_interact (h : H) (tick : UInt32) (os : List Outcome) :
    Follows (interact m.recorder (h, []) tick os) ((Session.start m h).run m .interact os) := by
  have hrun : ∀ (s : Interaction (Recorded H)) (x : Session H), Follows s x →
      Follows (os.foldl (resume m.recorder) s) (x.run m .interact os) := by
    induction os with
    | nil => exact fun s x hsx => hsx
    | cons o os ih => exact fun s x hsx => ih _ _ (follows_resume m hsx o)
  exact hrun _ _ (follows_turn m _)

end Interaction

/-! ### `Server` -/

namespace RunState

/-- What becomes of the operation of the only connection is an event for the server. -/
def respond (ph : ProtocolHandler H) (s : RunState Unit H) (o : Outcome) : RunState Unit H :=
  match s.connections with
  | [some c] =>
    let timeout : Event Unit H := .timeout (c.startTime + c.phOperation.timeToWait)
    let waits := c.phOperation.timeToWait = INFINITE_TIMEOUT
    match c.state, o.send, o.receive with
    | .sending, .completes n, _ => s.iterate ph ⟨.sent () n, fun _ => ⟨false, o.tick⟩⟩
    | .sending, .timesOut _, _ => if waits then s else s.iterate ph ⟨timeout, fun _ => ⟨false, o.tick⟩⟩
    | .receiving, _, .completes bytes => s.iterate ph ⟨.received () bytes, fun _ => ⟨false, o.tick⟩⟩
    | .receiving, _, .timesOut => if waits then s else s.iterate ph ⟨timeout, fun _ => ⟨false, o.tick⟩⟩
    | _, _, _ => s
  | _ => s

/-- `Server` with one connection, and what becomes of the first operations. -/
def serve (ph : ProtocolHandler H) (h : H) (tick : UInt32) (os : List Outcome) : RunState Unit H :=
  os.foldl (respond ph) (RunState.new.iterate ph ⟨.accept () h, fun _ => ⟨false, tick⟩⟩)

end RunState

def Connection.Follows (c : Connection Unit (Recorded H)) (x : Session H) : Prop :=
  c.handler = x.handler ∧
    match x.pending with
    | .send dataToSend timeToWait =>
      c.state = .sending ∧ c.phOperation.dataToSend = dataToSend ∧ c.phOperation.timeToWait = timeToWait ∧
        c.sendOperation.data = dataToSend ∧ c.sendOperation.numSentBytes = 0
    | .receive timeToWait =>
      c.state = .receiving ∧ c.phOperation.timeToWait = timeToWait ∧ c.receiveOperation.data = buffer ∧
        c.receiveOperation.numReceivedBytes = 0
    | .closed => c.state = .closing

/-- What a function did to the connection is what the session did. -/
def Result.Follows (r : Result Unit (Recorded H)) (x : Session H) : Prop :=
  r.connection.Follows x ∧ (r.closes = true ↔ x.pending = .closed)

def RunState.Follows (s : RunState Unit (Recorded H)) (x : Session H) : Prop :=
  ∃ c : Connection Unit (Recorded H), c.Follows x ∧ s.closeSignal = false ∧
    if x.pending = .closed then s.connections = [] ∧ s.dropped = [c] else s.connections = [some c] ∧ s.dropped = []

variable {s : RunState Unit (Recorded H)}

section Server

variable (m : Machine H)

theorem follows_startConnection (tick : UInt32) (c : Connection Unit (Recorded H)) :
    (startConnection m.recorder ⟨false, tick⟩ c).Follows (Session.next m c.handler) := by
  rw [startConnection, Session.next]
  simp only [Machine.recorder, Connection.callback, Connection.sendAsync, Connection.receiveAsync, Bool.true_eq_false,
    Bool.false_eq_true, if_false, if_true]
  split_ifs
  · exact ⟨⟨rfl, rfl, rfl, rfl, rfl, rfl⟩, iff_of_false (fun h => by cases h) fun h => by cases h⟩
  · exact ⟨⟨rfl, rfl⟩, iff_of_true rfl rfl⟩
  · exact ⟨⟨rfl, rfl, rfl, rfl, rfl⟩, iff_of_false (fun h => by cases h) fun h => by cases h⟩

theorem follows_processClosing {r : Result Unit (Recorded H)} (h : r.Follows x) :
    (RunState.processClosing ⟨[some r.connection], r.closes, []⟩).Follows x := by
  obtain ⟨hconnection, hcloses⟩ := h
  refine ⟨r.connection, hconnection, ?_⟩
  rw [RunState.processClosing]
  by_cases hclosed : x.pending = .closed
  · have hstate : r.connection.state = .closing := by
      have h := hconnection.2
      rwa [hclosed] at h
    rw [if_pos hclosed, hcloses.mpr hclosed, if_pos rfl, Compact.compact_eq_filter]
    simp [Compact.keeps, hstate]
  · have hopen : r.closes = false := Bool.eq_false_iff.mpr fun h => hclosed (hcloses.mp h)
    rw [if_neg hclosed, hopen]
    exact ⟨rfl, rfl, rfl⟩

theorem follows_start (h : H) (tick : UInt32) :
    (RunState.new.iterate m.recorder ⟨.accept () (h, []), fun _ => ⟨false, tick⟩⟩).Follows (Session.start m h) :=
  follows_processClosing (follows_startConnection m tick (Connection.new () (h, [])))

variable {c : Connection Unit H}

theorem eventLoop_single {f : Connection Unit H → Option (Result Unit H)} {r : Result Unit H}
    (h : f c = some r) : eventLoop f [some c] = ([some r.connection], r.closes) := by
  rw [eventLoop, h]
  simp only [eventLoop, Bool.or_false]
  split_ifs <;> rfl

theorem iterate_sent (ph : ProtocolHandler H) (hstate : c.state = .sending) (n : Nat) (out : Outside) :
    RunState.iterate ph ⟨[some c], false, []⟩ ⟨.sent () n, fun _ => out⟩ =
      RunState.processClosing
        ⟨[some (handleSent ph out (c.complete (.sent () n))).connection],
          (handleSent ph out (c.complete (.sent () n))).closes, []⟩ := by
  have hevent : handleConnectionEvent ph out (c.complete (.sent () n)) (.send ()) =
      some (handleSent ph out (c.complete (.sent () n))) := by
    have hcomplete : (c.complete (.sent () n)).state = .sending := hstate
    rw [handleConnectionEvent, hcomplete]
    rfl
  have hloop := eventLoop_single (f := fun c => handleConnectionEvent ph out c (.send ())) hevent
  rw [RunState.iterate, handleEvent]
  simp only [List.map_cons, List.map_nil, Option.map_some, hloop, Bool.false_or]

theorem iterate_received (ph : ProtocolHandler H) (hstate : c.state = .receiving) (bytes : Bytes) (out : Outside) :
    RunState.iterate ph ⟨[some c], false, []⟩ ⟨.received () bytes, fun _ => out⟩ =
      RunState.processClosing
        ⟨[some (handleReceived ph out (c.complete (.received () bytes))).connection],
          (handleReceived ph out (c.complete (.received () bytes))).closes, []⟩ := by
  have hevent : handleConnectionEvent ph out (c.complete (.received () bytes)) (.receive ()) =
      some (handleReceived ph out (c.complete (.received () bytes))) := by
    have hcomplete : (c.complete (.received () bytes)).state = .receiving := hstate
    rw [handleConnectionEvent, hcomplete]
    rfl
  have hloop := eventLoop_single (f := fun c => handleConnectionEvent ph out c (.receive ())) hevent
  rw [RunState.iterate, handleEvent]
  simp only [List.map_cons, List.map_nil, Option.map_some, hloop, Bool.false_or]

theorem iterate_timeout (ph : ProtocolHandler H) (c : Connection Unit H) (now : UInt32) (out : Outside) :
    RunState.iterate ph ⟨[some c], false, []⟩ ⟨.timeout now, fun _ => out⟩ =
      RunState.processClosing
        ⟨[some (handleConnectionTime ph out now c).connection], (handleConnectionTime ph out now c).closes, []⟩ := by
  rw [RunState.iterate, handleEvent]
  simp [timerLoop, Connection.complete]

theorem timedOut_of_finite (h : c.phOperation.timeToWait ≠ INFINITE_TIMEOUT) :
    c.timedOut (c.startTime + c.phOperation.timeToWait) = true := by
  have hsub : c.startTime + c.phOperation.timeToWait - c.startTime = c.phOperation.timeToWait := by
    rw [UInt32.add_comm, UInt32.add_sub_cancel]
  rw [Connection.timedOut, hsub]
  simpa using h

theorem getUnsentBytes_complete {dataToSend : Bytes} (hdata : c.sendOperation.data = dataToSend)
    (hzero : c.sendOperation.numSentBytes = 0) (n : Nat) :
    (c.complete (.sent () n)).sendOperation.getUnsentBytes = dataToSend.drop n ∧
      (c.complete (.sent () n)).sendOperation.numSentBytes = min n dataToSend.length := by
  have hunsent := Interaction.getUnsentBytes_transmitted dataToSend n
  refine ⟨?_, ?_⟩
  · show c.sendOperation.data.drop (c.sendOperation.numSentBytes +
      min n (c.sendOperation.data.drop c.sendOperation.numSentBytes).length) = _
    rw [hdata, hzero]
    exact hunsent
  · show c.sendOperation.numSentBytes + min n (c.sendOperation.data.drop c.sendOperation.numSentBytes).length = _
    rw [hdata, hzero, List.drop_zero, Nat.zero_add]

variable {c : Connection Unit (Recorded H)}

variable {o : Outcome}

theorem follows_handleSent (hc : c.Follows x) (hx : x.Proper)
    {dataToSend : Bytes} {timeToWait : UInt32} (hpending : x.pending = .send dataToSend timeToWait) {n : Nat}
    (ho : o.send = .completes n) (tick : UInt32) :
    (handleSent m.recorder ⟨false, tick⟩ (c.complete (.sent () n))).Follows (x.step m .server o) := by
  obtain ⟨hhandler, hc⟩ := hc
  rw [hpending] at hc
  obtain ⟨hstate, -, htime, hdata, hzero⟩ := hc
  obtain ⟨hunsent, hsent⟩ := getUnsentBytes_complete hdata hzero n
  have hsome := List.length_pos_iff.mpr (hx.sends dataToSend timeToWait hpending)
  have hsame : (c.complete (.sent () n)).handler = x.handler := hhandler
  rw [handleSent, Session.step, hpending, ho, hunsent, hsent]
  simp only [List.drop_eq_nil_iff]
  by_cases hall : dataToSend.length ≤ n
  · rw [if_pos hall, if_pos hall, ← hsame]
    exact follows_startConnection m tick _
  · rw [if_neg hall, if_neg hall]
    by_cases hnone : n = 0
    · rw [if_pos (by omega), if_pos ⟨hnone, rfl⟩, ← hsame]
      exact ⟨⟨rfl, rfl⟩, iff_of_true rfl rfl⟩
    · rw [if_neg (by omega), if_neg fun h => hnone h.1]
      refine ⟨⟨hhandler, rfl, rfl, htime, rfl, rfl⟩, iff_of_false (fun h => ?_) fun h => ?_⟩
      · cases h
      · cases h

theorem follows_handleReceived (hc : c.Follows x)
    {timeToWait : UInt32} (hpending : x.pending = .receive timeToWait) {bytes : Bytes}
    (ho : o.receive = .completes bytes) (tick : UInt32) :
    (handleReceived m.recorder ⟨false, tick⟩ (c.complete (.received () bytes))).Follows (x.step m .server o) := by
  obtain ⟨hhandler, hc⟩ := hc
  rw [hpending] at hc
  obtain ⟨hstate, htime, hdata, hzero⟩ := hc
  obtain ⟨hbytes, hnone⟩ : (c.complete (.received () bytes)).receiveOperation.getReceivedBytes = bytes.take buffer.length ∧
      ((c.complete (.received () bytes)).receiveOperation.numReceivedBytes = 0 ↔ bytes = []) :=
    Interaction.received_of_arrived hdata hzero bytes
  have hsame : (c.complete (.received () bytes)).handler = x.handler := hhandler
  rw [handleReceived, Session.step, hpending, ho, ← hsame]
  simp only [Connection.callback, Machine.recorder, if_true, hnone, hbytes]
  split_ifs
  · exact ⟨⟨rfl, rfl⟩, iff_of_true rfl rfl⟩
  · exact follows_startConnection m tick _

/-- The operation of the session times out. -/
def Session.TimesOut (x : Session H) (o : Outcome) : Prop :=
  match x.pending with
  | .send _ _ => ∃ n, o.send = .timesOut n
  | .receive _ => o.receive = .timesOut
  | .closed => False

theorem follows_handleConnectionTime (hc : c.Follows x) (hfinite : c.phOperation.timeToWait ≠ INFINITE_TIMEOUT)
    (ho : x.TimesOut o) (tick : UInt32) :
    (handleConnectionTime m.recorder ⟨false, tick⟩ (c.startTime + c.phOperation.timeToWait) c).Follows
      (x.step m .server o) := by
  have htimedOut := timedOut_of_finite hfinite
  obtain ⟨hhandler, hc⟩ := hc
  rw [Session.TimesOut] at ho
  rw [handleConnectionTime, Session.step]
  rcases hpending : x.pending with ⟨dataToSend, timeToWait⟩ | timeToWait | _
  · rw [hpending] at hc ho
    obtain ⟨hstate, hdata, htime, -⟩ := hc
    obtain ⟨n, ho⟩ := ho
    rw [htime] at hfinite
    simp only [hstate, ho, htimedOut, if_true, if_neg hfinite, Connection.callback, Machine.recorder, hdata, hhandler]
    exact follows_startConnection m tick _
  · rw [hpending] at hc ho
    obtain ⟨hstate, htime, -⟩ := hc
    have ho : o.receive = .timesOut := ho
    rw [htime] at hfinite
    simp only [hstate, ho, htimedOut, if_true, if_neg hfinite, Connection.callback, Machine.recorder, hhandler]
    exact follows_startConnection m tick _
  · rw [hpending] at ho
    exact ho.elim

theorem Connection.Follows.waits (hc : c.Follows x) (hinfinite : c.phOperation.timeToWait = INFINITE_TIMEOUT)
    (ho : x.TimesOut o) : x.step m .server o = x := by
  obtain ⟨-, hc⟩ := hc
  rw [Session.TimesOut] at ho
  rw [Session.step]
  rcases hpending : x.pending with ⟨dataToSend, timeToWait⟩ | timeToWait | _
  · rw [hpending] at hc ho
    obtain ⟨n, ho⟩ := ho
    rw [← hc.2.2.1]
    simp only [ho, hinfinite, if_true]
  · rw [hpending] at hc ho
    have ho : o.receive = .timesOut := ho
    rw [← hc.2.1]
    simp only [ho, hinfinite, if_true]
  · rfl

theorem follows_timeout (hc : c.Follows x)
    (hs : (⟨[some c], false, []⟩ : RunState Unit (Recorded H)).Follows x) (ho : x.TimesOut o) :
    (if c.phOperation.timeToWait = INFINITE_TIMEOUT then (⟨[some c], false, []⟩ : RunState Unit (Recorded H))
      else RunState.iterate m.recorder ⟨[some c], false, []⟩
        ⟨.timeout (c.startTime + c.phOperation.timeToWait), fun _ => ⟨false, o.tick⟩⟩).Follows (x.step m .server o) := by
  split_ifs with hinfinite
  · rwa [hc.waits m hinfinite ho]
  · rw [iterate_timeout]
    exact follows_processClosing (follows_handleConnectionTime m hc hinfinite ho o.tick)

theorem RunState.Follows.serving (hs : s.Follows x)
    (hopen : x.pending ≠ .closed) : ∃ c : Connection Unit (Recorded H), c.Follows x ∧ s = ⟨[some c], false, []⟩ := by
  obtain ⟨c, hc, hsignal, hlists⟩ := hs
  rw [if_neg hopen] at hlists
  refine ⟨c, hc, ?_⟩
  rw [← hlists.1, ← hlists.2, ← hsignal]

theorem follows_respond (hs : s.Follows x) (hx : x.Proper) (o : Outcome) :
    (s.respond m.recorder o).Follows (x.step m .server o) := by
  rw [RunState.respond]
  rcases hpending : x.pending with ⟨dataToSend, timeToWait⟩ | timeToWait | _
  · obtain ⟨c, hc, rfl⟩ := hs.serving (by rw [hpending]; exact fun h => by cases h)
    have hstate : c.state = .sending := by
      have h := hc.2
      rw [hpending] at h
      exact h.1
    rcases hsend : o.send with n | n
    · simp only [hstate]
      rw [iterate_sent _ hstate]
      exact follows_processClosing (follows_handleSent m hc hx hpending hsend o.tick)
    · simp only [hstate]
      refine follows_timeout m hc hs ?_
      rw [Session.TimesOut, hpending]
      exact ⟨n, hsend⟩
  · obtain ⟨c, hc, rfl⟩ := hs.serving (by rw [hpending]; exact fun h => by cases h)
    have hstate : c.state = .receiving := by
      have h := hc.2
      rw [hpending] at h
      exact h.1
    rcases hreceive : o.receive with bytes | _
    · simp only [hstate]
      rw [iterate_received _ hstate]
      exact follows_processClosing (follows_handleReceived m hc hpending hreceive o.tick)
    · simp only [hstate]
      refine follows_timeout m hc hs ?_
      rw [Session.TimesOut, hpending]
      exact hreceive
  · have hs' := hs
    obtain ⟨c, -, -, hlists⟩ := hs
    rw [hpending, if_pos rfl] at hlists
    rw [hlists.1, Session.step, hpending]
    exact hs'

theorem follows_serve (h : H) (tick : UInt32) (os : List Outcome) :
    (RunState.serve m.recorder (h, []) tick os).Follows ((Session.start m h).run m .server os) := by
  have hrun : ∀ (s : RunState Unit (Recorded H)) (x : Session H), s.Follows x → x.Proper →
      (os.foldl (RunState.respond m.recorder) s).Follows (x.run m .server os) := by
    induction os with
    | nil => exact fun s x hsx _ => hsx
    | cons o os ih => exact fun s x hsx hx => ih _ _ (follows_respond m hsx hx o) (hx.step o)
  exact hrun _ _ (follows_start m h tick) (Session.proper_start m h)

end Server

/-! ### Alike -/

/-- After the script and enough reports that the peer is gone, `interact` has returned, the server has dropped its
connection, and both have made the same callbacks, the last and only the last of which is `handleConnectionClose`. -/
def DrivenAlike (m : Machine H) (h : H) (tick : UInt32) (script : List Outcome) : Prop :=
  ∃ n c, let os := script ++ List.replicate n Outcome.closed
    let s := Interaction.interact m.recorder (h, []) tick os
    let server := RunState.serve m.recorder (h, []) tick os
    s.place = .returned ∧ server.connections = [] ∧ server.dropped = [c] ∧ s.handler.2 = c.handler.2 ∧
      ∃ before, s.handler.2 = before ++ [.handleConnectionClose] ∧ .handleConnectionClose ∉ before

theorem Interaction.Follows.finished {s : Interaction (Recorded H)} (hs : Interaction.Follows s x) :
    s.place = .returned ↔ x.pending = .closed := by
  rw [hs.2]
  rcases x.pending with ⟨_, _⟩ | _ | _
  · exact iff_of_false (fun h => by cases h) fun h => by cases h
  · exact iff_of_false (fun h => by cases h) fun h => by cases h
  · exact iff_of_true rfl rfl

theorem RunState.Follows.finished (hs : s.Follows x) :
    s.connections = [] ↔ x.pending = .closed := by
  obtain ⟨c, -, -, hlists⟩ := hs
  split_ifs at hlists with hclosed
  · exact iff_of_true hlists.1 hclosed
  · refine iff_of_false ?_ hclosed
    rw [hlists.1]
    exact List.cons_ne_nil _ _

theorem RunState.Follows.dropped (hs : s.Follows x)
    (hclosed : x.pending = .closed) : ∃ c, s.dropped = [c] ∧ c.handler = x.handler := by
  obtain ⟨c, hc, -, hlists⟩ := hs
  rw [if_pos hclosed] at hlists
  exact ⟨c, hlists.2, hc.1⟩

/-- **`Server` and `interact` drive a handler alike exactly if no send completes without effect and none times out
half-way.** -/
theorem drivenAlike_iff (m : Machine H) (h : H) (tick : UInt32) (script : List Outcome) :
    DrivenAlike m h tick script ↔ (Session.start m h).AllClear m (script ++ [Outcome.closed]) := by
  have hproper := Session.proper_start m h
  constructor
  · rintro ⟨n, c, hplace, hconnections, hdropped, hlog, -⟩
    have hinteract := Interaction.follows_interact m h tick (script ++ List.replicate n Outcome.closed)
    have hserve := follows_serve m h tick (script ++ List.replicate n Outcome.closed)
    have hclosed := hserve.finished.mp hconnections
    obtain ⟨c', hdropped', hhandler⟩ := hserve.dropped hclosed
    obtain rfl : c = c' := by
      rw [hdropped] at hdropped'
      exact List.head_eq_of_cons_eq hdropped'
    have hclosed' := hinteract.finished.mp hplace
    have hclear : (Session.start m h).AllClear m (script ++ List.replicate n Outcome.closed) := by
      by_contra hnot
      refine (Session.parted_of_not_allClear hproper hnot).log_ne hclosed' ?_
      rw [Session.log, Session.log, ← hhandler, ← hinteract.1]
      exact hlog.symm
    rw [Session.allClear_append] at hclear ⊢
    refine ⟨hclear.1, ?_, trivial⟩
    rcases n with _ | n
    · rw [List.replicate_zero, List.append_nil] at hclosed
      rw [Session.Clear, hclosed]
      trivial
    · exact hclear.2.1
  · intro hclear
    have hinteract := Interaction.follows_interact m h tick (script ++ [Outcome.closed])
    have hserve := follows_serve m h tick (script ++ [Outcome.closed])
    have hclosed : ((Session.start m h).run m .server (script ++ [Outcome.closed])).pending = .closed := by
      rw [Session.allClear_append] at hclear
      rw [Session.run_append]
      exact Session.closed_of_clear hclear.2.1 .server
    rw [Session.run_eq_of_allClear hclear] at hinteract
    obtain ⟨c, hdropped, hhandler⟩ := hserve.dropped hclosed
    obtain ⟨before, hlog, hbefore⟩ := (hproper.run (script ++ [Outcome.closed])).closed hclosed
    refine ⟨1, c, ?_, hserve.finished.mpr hclosed, hdropped, ?_, before, ?_, hbefore⟩
    · rw [List.replicate_one]
      exact hinteract.finished.mpr hclosed
    · rw [List.replicate_one, hinteract.1, hhandler]
    · rw [List.replicate_one, hinteract.1]
      exact hlog

/-- A handler that sends a byte and then closes the connection. -/
def greeter : Machine Bool where
  getOperation := fun sent => (true, if sent then ⟨[], true, INFINITE_TIMEOUT⟩ else ⟨[65], false, INFINITE_TIMEOUT⟩)
  advanceTime := id
  handleData := fun _ => id
  handleSendTimeout := fun _ => id
  handleConnectionClose := id

theorem interact_repeats (n : Nat) (s : Interaction (Recorded Bool)) (hs : s.place = .send [65] INFINITE_TIMEOUT) :
    ((List.replicate n Outcome.closed).foldl (Interaction.resume greeter.recorder) s).place =
      .send [65] INFINITE_TIMEOUT := by
  induction n generalizing s with
  | zero => exact hs
  | succ n ih =>
    rw [List.replicate_succ, List.foldl_cons]
    refine ih _ ?_
    rw [Interaction.resume, hs]
    rfl

/-- The peer is gone before the byte is sent: the server closes the connection, `interact` never returns. -/
theorem closed_peer_not_drivenAlike : ¬DrivenAlike greeter false 0 [] := by
  rintro ⟨n, c, hplace, -⟩
  have hblocked := interact_repeats n (Interaction.start greeter.recorder (false, []) 0) rfl
  rw [List.nil_append, Interaction.interact, hblocked] at hplace
  cases hplace

end Afl.Net.Server
