import Afl.Net.Http.ClientRuns
import Afl.Net.Http.Packets

/-!
# A connection and what it receives

A `Session` is a connection together with what it has received since it got its request. The response is the one the
received bytes are parsed into, however they were cut: `Follows` says so of the connection's members, and every part of
`handleEvent` keeps it. The parts that do not process received data are `Quiet`.
-/

namespace Afl.Net.Http

open ClientConnection

variable {ρ δ : Type}

/-! ### Where a response ends -/

/-- What is left after the end of the body of what follows the header, if the header says where that end is. -/
def ClientResponse.left (r : ClientResponse) (body : Bytes) : Option Bytes :=
  (ResponseSinks.createLimit r).bind fun sink => sink.left body

namespace ResponseSinks

/-- The same for sinks that have seen a part of the body. -/
def left (s : ResponseSinks δ) (data : Bytes) : Option Bytes := s.limit.bind fun sink => sink.left data

def Ready (s : ResponseSinks δ) : Prop := ∀ sink ∈ s.limit, sink.Ready

variable [InflateClass δ]

theorem create_ready {r : ClientResponse} {s : ResponseSinks δ} (h : create r = .ok s) :
    s.Ready ∧ ∀ data, s.left data = r.left data := by
  obtain ⟨limit, inflate⟩ := s
  have hlimit : limit = createLimit r := by
    unfold create at h
    rcases hinflate : createInflate (δ := δ) r.getResponseEncoding with e | d <;> rw [hinflate] at h <;> cases h
    rfl
  refine ⟨?_, fun data => by rw [left, ClientResponse.left, hlimit]⟩
  intro sink hsink
  rw [hlimit, createLimit] at hsink
  split at hsink <;> cases hsink
  · exact trivial
  · exact ChunkedSink.live_create

theorem handleData_limit {s s' : ResponseSinks δ} {data : Bytes} (h : (s.handleData data).2 = .ok s') :
    s'.isComplete = (s.left data).isSome ∧
      (s.Ready → s'.isComplete = false → s'.Ready ∧ ∀ later, s.left (data ++ later) = s'.left later) := by
  have hlimit : s'.limit = (delimit data s.limit).2 := by
    simp only [handleData] at h
    rcases hinflate : (inflateAll s.inflate (delimit data s.limit).1).2 with e | d <;> rw [hinflate] at h <;> cases h
    rfl
  rcases hs : s.limit with _ | sink
  · have hnone : s'.limit = none := by rw [hlimit, hs]; rfl
    refine ⟨by simp [isComplete, left, hs, hnone], fun _ _ => ⟨by simp [Ready, hnone], fun later => ?_⟩⟩
    rw [left, left, hs, hnone]
    rfl
  · have hsome : s'.limit = some (sink.handleData data).2.1 := by rw [hlimit, hs]; rfl
    have hcomplete : s'.isComplete = (s.left data).isSome := by
      rw [isComplete, left, hsome, hs, Option.any_some, Option.bind_some, BodySink.left]
      split_ifs with hc
      · rw [hc, Option.isSome_some]
      · rw [Option.isSome_none]
        simpa using hc
    refine ⟨hcomplete, fun hready hmore => ?_⟩
    have hleft : sink.left data = none := by
      rw [hcomplete, left, hs, Option.bind_some] at hmore
      simpa using hmore
    obtain ⟨hnext, happend⟩ := BodySink.left_append (hready sink hs) hleft
    refine ⟨fun sink' hsink' => ?_, fun later => ?_⟩
    · rw [hsome] at hsink'
      cases hsink'
      exact hnext
    · rw [left, left, hs, hsome, Option.bind_some, Option.bind_some, happend]

end ResponseSinks

/-! ### A connection and its owner -/

/-- What is done to a connection: the functions its owner calls. `finish` is `handleEvent` with an operation of the
connection that its socket has finished, `event` any other one. -/
inductive ConnectionAct (ρ : Type)
  | setNewRequest (req : ClientRequest ρ)
  | finish (transfer : Transfer) (elapsed : UInt32)
  | event (p : Option AsyncOperation) (elapsed : UInt32)
  | cancelRequest (id : UInt32)
  | cancel
  | extractRequest

def Transfer.data : Transfer → Bytes
  | .sent _ => []
  | .received data => data

/-- A connection, the calls it has made in the last step, and what it has received since it got its request. -/
structure Session (ρ δ : Type) where
  conn : ClientConnection ρ δ
  calls : Calls
  isHeadRequest : Bool
  stream : Bytes

namespace Session

def create (self : Nat) (name : Name) (scheme : Bytes) : Session ρ δ := ⟨.create self name scheme, [], false, []⟩

def after (s : Session ρ δ) (data : Bytes) (w : Work ρ δ) : Session ρ δ :=
  { s with conn := w.conn, calls := w.calls, stream := s.stream ++ data }

section

variable [RequestClass ρ] [InflateClass δ]

/-- One step; there is none if an assertion fails, or if the socket cannot finish the operation that way. -/
def step (s : Session ρ δ) : ConnectionAct ρ → Option (Session ρ δ)
  | .setNewRequest req => do
    let conn ← s.conn.setNewRequest req
    some ⟨conn, [], RequestClass.isHeadRequest req.data, []⟩
  | .finish transfer elapsed =>
    if transfer.fits s.conn then do
      let w ← (transfer.apply s.conn).handleEvent (some ⟨s.conn.self, transfer.kind⟩) elapsed
      some (s.after transfer.data w)
    else none
  | .event p elapsed =>
    if p.any fun op => op.connection = s.conn.self then none
    else do
      let w ← s.conn.handleEvent p elapsed
      some (s.after [] w)
  | .cancelRequest id => some (s.after [] (ClientConnection.cancelRequest ⟨s.conn, []⟩ id))
  | .cancel => some (s.after [] (ClientConnection.cancel ⟨s.conn, []⟩))
  | .extractRequest => do
    let (_, conn) ← s.conn.extractRequest
    some { s with conn := conn, calls := [] }

end

end Session

def Succeeds (calls : Calls) : Prop := ∃ object, (object, Callback.handleSuccess) ∈ calls

/-! ### What a connection knows of its response -/

/-- The states in which the header of the response is not complete. -/
def AwaitsHeader (s : ConnectionState) : Prop :=
  s = .beforeSend ∨ s = .duringSend ∨ s = .beforeReceiveHeader ∨ s = .duringReceiveHeader

/-- The states in which its body is not complete. -/
def AwaitsPayload (s : ConnectionState) : Prop := s = .beforeReceivePayload ∨ s = .duringReceivePayload

/-- The connection has parsed the bytes of `stream`. -/
structure Follows (isHeadRequest : Bool) (stream : Bytes) (c : ClientConnection ρ δ) : Prop where
  header : AwaitsHeader c.state → c.responseSink = none ∧ ∃ r, c.response = some r ∧ r.Live ∧ r.isComplete = false ∧
    ∀ later, (ClientResponse.create isHeadRequest).handleData (stream ++ later) = r.handleData later
  payload : AwaitsPayload c.state → ∃ r body sinks, c.response = some r ∧ c.responseSink = some sinks ∧
    r.isComplete = true ∧ sinks.Ready ∧ (ClientResponse.create isHeadRequest).handleData stream = (r, body) ∧
    r.left body = none ∧ ∀ later, r.left (body ++ later) = sinks.left later
  reading : c.active = some .receive → c.state = .duringReceiveHeader ∨ c.state = .duringReceivePayload

theorem Follows.of_idle {head : Bool} {stream : Bytes} {c : ClientConnection ρ δ}
    (hstate : c.state = .wantWait ∨ c.state = .wantClose) (hactive : c.active ≠ some .receive) :
    Follows head stream c := by
  refine ⟨fun h => ?_, fun h => ?_, fun h => absurd h hactive⟩
  · rcases hstate with hs | hs <;> simp [AwaitsHeader, hs] at h
  · rcases hstate with hs | hs <;> simp [AwaitsPayload, hs] at h

theorem succeeds_append {calls more : Calls} (hmore : ∀ c ∈ more, c.2 ≠ .handleSuccess) :
    Succeeds (calls ++ more) ↔ Succeeds calls := by
  constructor
  · rintro ⟨object, h⟩
    rcases List.mem_append.mp h with h | h
    · exact ⟨object, h⟩
    · exact absurd rfl (hmore _ h)
  · rintro ⟨object, h⟩
    exact ⟨object, List.mem_append_left more h⟩

/-- Work that leaves the response as it is, reports no success and does not lead to waiting. -/
structure Quiet (head : Bool) (stream : Bytes) (w w' : Work ρ δ) : Prop where
  follows : Follows head stream w'.conn
  state : w'.conn.state ≠ .wantWait
  calls : Succeeds w'.calls ↔ Succeeds w.calls

section

variable {head : Bool} {stream : Bytes} {w w' : Work ρ δ}

theorem Quiet.refl (hw : Follows head stream w.conn) (hstate : w.conn.state ≠ .wantWait) : Quiet head stream w w :=
  ⟨hw, hstate, .rfl⟩

theorem Quiet.trans {w'' : Work ρ δ} (h : Quiet head stream w w') (h' : Quiet head stream w' w'') :
    Quiet head stream w w'' :=
  ⟨h'.follows, h'.state, h'.calls.trans h.calls⟩

theorem Quiet.of_closed (hstate : w'.conn.state = .wantClose) (hactive : w'.conn.active ≠ some .receive)
    (hcalls : Succeeds w'.calls ↔ Succeeds w.calls) : Quiet head stream w w' :=
  ⟨.of_idle (.inr hstate) hactive, by simp [hstate], hcalls⟩

theorem Quiet.trans_cancel (h : Quiet head stream w.cancelOperation w') : Quiet head stream w w' :=
  ⟨h.follows, h.state, h.calls⟩

theorem when_quiet {p : ClientConnection ρ δ → Bool} {f : Work ρ δ → Option (Work ρ δ)}
    (hw : Follows head stream w.conn) (hstate : w.conn.state ≠ .wantWait)
    (hf : p w.conn = true → f w = some w' → Quiet head stream w w') (h : w.when p f = some w') :
    Quiet head stream w w' := by
  unfold Work.when at h
  split_ifs at h with hp
  · exact hf hp h
  · cases h
    exact .refl hw hstate

theorem when_of_false {p : ClientConnection ρ δ → Bool} (hp : p w.conn = false)
    (f : Work ρ δ → Option (Work ρ δ)) : w.when p f = some w := by
  rw [Work.when, hp, if_neg Bool.false_ne_true]

theorem when_of_true {p : ClientConnection ρ δ → Bool} (hp : p w.conn = true)
    (f : Work ρ δ → Option (Work ρ δ)) : w.when p f = f w := by
  rw [Work.when, hp, if_pos rfl]

theorem finish_quiet {callback : Callback} (hcallback : callback ≠ .handleSuccess)
    (hactive : w.conn.active ≠ some .receive) (h : w.finish callback .wantClose = some w') :
    Quiet head stream w w' := by
  unfold Work.finish at h
  rcases hr : w.conn.request with _ | r <;> rw [hr] at h <;> cases h
  exact .of_closed rfl hactive (succeeds_append (by simpa using hcallback))

theorem startReceive_quiet {next : ConnectionState} (hw : Follows head stream w.conn)
    (hstates : w.conn.state = .beforeReceiveHeader ∧ next = .duringReceiveHeader ∨
      w.conn.state = .beforeReceivePayload ∧ next = .duringReceivePayload)
    (h : w.startReceive next = some w') : Quiet head stream w w' := by
  cases h
  rcases hstates with ⟨hstate, rfl⟩ | ⟨hstate, rfl⟩
  · refine ⟨⟨fun _ => hw.header (by simp [AwaitsHeader, hstate]), fun h => ?_, fun _ => .inl rfl⟩, ?_, .rfl⟩
    · simp [AwaitsPayload, receiveAsync] at h
    · simp [receiveAsync]
  · refine ⟨⟨fun h => ?_, fun _ => hw.payload (by simp [AwaitsPayload, hstate]), fun _ => .inr rfl⟩, ?_, .rfl⟩
    · simp [AwaitsHeader, receiveAsync] at h
    · simp [receiveAsync]

theorem Follows.sending {c : ClientConnection ρ δ} (hc : Follows head stream c) (hsending : AwaitsHeader c.state)
    {next : ConnectionState} (hnext : AwaitsHeader next) {active : Option OperationKind}
    (hactive : active ≠ some .receive) {request : Option (ClientRequest ρ)} {idle : UInt32} {op : SendOperation}
    {received : Bytes} :
    Follows head stream ⟨c.self, c.name, c.scheme, request, c.response, c.responseSink, next, idle, op, received,
      active⟩ := by
  refine ⟨fun _ => hc.header hsending, fun h => ?_, fun h => absurd h hactive⟩
  rcases hnext with rfl | rfl | rfl | rfl <;> simp [AwaitsPayload] at h

variable [RequestClass ρ]

theorem restartOrFail_quiet {reason : FailureReason} (hactive : w.conn.active ≠ some .receive)
    (h : w.restartOrFail reason = some w') : Quiet head stream w w' := by
  unfold Work.restartOrFail at h
  rcases hr : w.conn.request with _ | r <;> rw [hr] at h
  · cases h
  · rcases hrestart : RequestClass.restart r.data with ⟨allowed, data⟩
    simp only [hrestart, Option.bind_eq_bind, Option.bind_some] at h
    have hcalls : ∀ allowed, Succeeds (w.calls ++ [(r.object, .restart allowed)]) ↔ Succeeds w.calls :=
      fun allowed => succeeds_append (by simp)
    split_ifs at h
    · cases h
      exact .of_closed rfl hactive (hcalls allowed)
    · have hfail : Quiet head stream _ w' := finish_quiet (by simp) (by exact hactive) h
      exact ⟨hfail.follows, hfail.state, hfail.calls.trans (hcalls allowed)⟩

theorem startSend_quiet (hw : Follows head stream w.conn) (hstate : w.conn.state = .beforeSend)
    (h : w.startSend = some w') : Quiet head stream w w' := by
  have hsending : AwaitsHeader w.conn.state := by simp [AwaitsHeader, hstate]
  have hactive : w.conn.active ≠ some .receive := fun hr => by simpa [hstate] using hw.reading hr
  unfold Work.startSend at h
  rcases hr : w.conn.request with _ | r <;> rw [hr] at h
  · cases h
  · rcases hdata : RequestClass.getRequestData r.data with ⟨data, next⟩
    simp only [hdata, Option.bind_eq_bind, Option.bind_some] at h
    have hcalls : Succeeds (w.calls ++ [(r.object, .getRequestData data)]) ↔ Succeeds w.calls :=
      succeeds_append (by simp)
    split_ifs at h <;> cases h
    · exact ⟨hw.sending hsending (by simp [AwaitsHeader]) hactive, by simp, hcalls⟩
    · exact ⟨hw.sending hsending (by simp [AwaitsHeader]) (by simp), by simp [sendAsync], hcalls⟩

theorem sendFinished_quiet (hw : Follows head stream w.conn) (hstate : w.conn.state = .duringSend)
    (h : w.sendFinished = some w') : Quiet head stream w w' := by
  have hsending : AwaitsHeader w.conn.state := by simp [AwaitsHeader, hstate]
  have hactive : w.conn.active ≠ some .receive := fun hr => by simpa [hstate] using hw.reading hr
  unfold Work.sendFinished at h
  split_ifs at h
  · cases h
    exact ⟨hw.sending hsending (by simp [AwaitsHeader]) hactive, by simp, .rfl⟩
  · exact restartOrFail_quiet hactive h
  · cases h
    exact ⟨hw.sending hsending (by simp [AwaitsHeader]) (by simp), by simp [sendAsync], .rfl⟩

theorem checkTimeout_quiet (hw : Follows head stream w.conn) (hstate : w.conn.state ≠ .wantWait)
    (h : w.checkTimeout = some w') : Quiet head stream w w' := by
  have hactive : w.cancelOperation.conn.active ≠ some .receive := by simp [Work.cancelOperation]
  unfold Work.checkTimeout at h
  split at h
  · exact absurd ‹_› hstate
  · split_ifs at h
    · exact (restartOrFail_quiet hactive h).trans_cancel
    · cases h
      exact .refl hw hstate
  · split_ifs at h
    · exact (restartOrFail_quiet hactive h).trans_cancel
    · cases h
      exact .refl hw hstate
  · split_ifs at h
    · exact (finish_quiet (by simp) hactive h).trans_cancel
    · cases h
      exact .refl hw hstate
  all_goals
    cases h
    exact .refl hw hstate

/-- The parts of `handleEvent` that follow the processing of an operation. -/
def proceed (w : Work ρ δ) : Option (Work ρ δ) := do
  let w ← w.when (isIn .beforeSend) Work.startSend
  let w ← w.when (isIn .beforeReceiveHeader) (Work.startReceive .duringReceiveHeader)
  let w ← w.when (isIn .beforeReceivePayload) (Work.startReceive .duringReceivePayload)
  w.checkTimeout

theorem proceed_quiet (hw : Follows head stream w.conn) (hstate : w.conn.state ≠ .wantWait)
    (h : proceed w = some w') : Quiet head stream w w' := by
  have hin : ∀ {state : ConnectionState} {c : ClientConnection ρ δ}, isIn state c = true → c.state = state := by
    simp [isIn]
  unfold proceed at h
  obtain ⟨w₁, h₁, h⟩ := Option.bind_eq_some_iff.mp h
  have q₁ : Quiet head stream w w₁ := when_quiet hw hstate (fun hp => startSend_quiet hw (hin hp)) h₁
  obtain ⟨w₂, h₂, h⟩ := Option.bind_eq_some_iff.mp h
  have q₂ : Quiet head stream w₁ w₂ := when_quiet q₁.follows q₁.state
    (fun hp => startReceive_quiet q₁.follows (.inl ⟨hin hp, rfl⟩)) h₂
  obtain ⟨w₃, h₃, h⟩ := Option.bind_eq_some_iff.mp h
  have q₃ : Quiet head stream w₂ w₃ := when_quiet q₂.follows q₂.state
    (fun hp => startReceive_quiet q₂.follows (.inr ⟨hin hp, rfl⟩)) h₃
  exact q₁.trans (q₂.trans (q₃.trans (checkTimeout_quiet q₃.follows q₃.state h)))

theorem proceed_wantWait (hstate : w.conn.state = .wantWait) :
    proceed w =
      some (if w.conn.idleTime > idleTimeout then { w with conn := { w.conn with state := .wantClose } } else w) := by
  simp only [proceed, Work.when, isIn, hstate, Option.bind_eq_bind, Option.bind_some, reduceCtorEq, decide_false,
    Bool.false_eq_true, if_false, Work.checkTimeout]
  split_ifs <;> rfl

variable [InflateClass δ] {c : ClientConnection ρ δ} {elapsed : UInt32}

def aged (c : ClientConnection ρ δ) (elapsed : UInt32) : ClientConnection ρ δ :=
  { c with idleTime := c.idleTime + elapsed }

theorem handleEvent_proceed (p : Option AsyncOperation) :
    c.handleEvent p elapsed =
      (Work.when (finishedIn .duringSend .send p) Work.sendFinished ⟨aged c elapsed, []⟩ >>= fun w =>
        w.when (finishedIn .duringReceiveHeader .receive p) Work.headerReceived >>= fun w =>
          w.when (finishedIn .duringReceivePayload .receive p) Work.payloadReceived >>= proceed) :=
  rfl

theorem handleEvent_other {p : Option AsyncOperation} (hp : ∀ kind, p ≠ some ⟨c.self, kind⟩) :
    c.handleEvent p elapsed = proceed ⟨aged c elapsed, []⟩ := by
  have hskip : ∀ state kind, finishedIn state kind p (aged c elapsed) = false := by
    intro state kind
    simp [finishedIn, aged, hp]
  rw [handleEvent_proceed, when_of_false (hskip _ _), Option.bind_eq_bind, Option.bind_some, when_of_false (hskip _ _),
    Option.bind_some, when_of_false (hskip _ _), Option.bind_some]

theorem handleEvent_sent (self : Nat) :
    c.handleEvent (some ⟨self, .send⟩) elapsed =
      (Work.when (finishedIn .duringSend .send (some ⟨self, .send⟩)) Work.sendFinished ⟨aged c elapsed, []⟩ >>=
        proceed) := by
  have hskip : ∀ state (w : Work ρ δ), finishedIn state .receive (some ⟨self, .send⟩) w.conn = false := by
    simp [finishedIn]
  rw [handleEvent_proceed]
  refine bind_congr fun w => ?_
  rw [when_of_false (hskip _ w), Option.bind_eq_bind, Option.bind_some, when_of_false (hskip _ w), Option.bind_some]

theorem handleEvent_received (hstate : c.state = .duringReceiveHeader ∨ c.state = .duringReceivePayload) :
    c.handleEvent (some ⟨c.self, .receive⟩) elapsed =
      if c.state = .duringReceiveHeader then
        Work.headerReceived ⟨aged c elapsed, []⟩ >>= fun w =>
          w.when (finishedIn .duringReceivePayload .receive (some ⟨c.self, .receive⟩)) Work.payloadReceived >>= proceed
      else Work.payloadReceived ⟨aged c elapsed, []⟩ >>= proceed := by
  have hself : finishedIn c.state .receive (some ⟨c.self, .receive⟩) (aged c elapsed) = true := by
    simp [finishedIn, aged]
  have hskip : finishedIn .duringSend .send (some ⟨c.self, .receive⟩) (aged c elapsed) = false := by
    simp [finishedIn]
  rw [handleEvent_proceed, when_of_false hskip, Option.bind_eq_bind, Option.bind_some]
  rcases hstate with hs | hs <;> rw [hs] at hself
  · rw [when_of_true hself, if_pos hs]
  · have hheader : finishedIn .duringReceiveHeader .receive (some ⟨c.self, .receive⟩) (aged c elapsed) = false := by
      simp [finishedIn, aged, hs]
    rw [when_of_false hheader, Option.bind_some, when_of_true hself, if_neg (by simp [hs])]

end

end Afl.Net.Http
