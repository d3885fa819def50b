import Afl.Net.Http.Session

/-!
# Reusing a connection

A connection that has received the whole response offers itself for the next request, and nobody asks whether the server
agrees: `ClientConnection` never calls `isKeepalive()` or `hasErrors()`, and drops what follows the response in its
buffer. `SoundStep` is what the owner expects of a step, and `Answered` what the server has to send for that.
`finish_received` and `step_steady` say what data leads to, and `reuse_sound_iff` that a run is sound exactly if the
server always answers as it should.
-/

namespace Afl.Net.Http

open ClientConnection

variable {ρ δ : Type}

/-! ### What is expected -/

/-- The response a connection has parsed when it has processed the data, and what its sinks leave of the data. -/
def ClientConnection.handled (c : ClientConnection ρ δ) (data : Bytes) : Option (ClientResponse × Bytes) := do
  let r ← c.response
  let (r, rest) := r.handleData data
  match (c.responseSink.map ResponseSinks.limit).getD (ResponseSinks.createLimit r) with
  | none => some (r, [])
  | some sink => some (r, (sink.handleData rest).2.2)

/-- **Sound reuse.** A connection that returns to waiting has handled a response without errors that lets it do so, and
has used up its buffer; only a response without errors is a success. -/
structure SoundStep (t : Run.Taken (Session ρ δ) (ConnectionAct ρ)) : Prop where
  reuse : t.pre.conn.state ≠ .wantWait → t.post.conn.state = .wantWait →
    ∃ data elapsed r, t.act = .finish (.received data) elapsed ∧ t.pre.conn.handled data = some (r, []) ∧
      r.hasErrors = false ∧ r.isKeepalive = true
  success : Succeeds t.post.calls →
    ∃ data elapsed r left, t.act = .finish (.received data) elapsed ∧ t.pre.conn.handled data = some (r, left) ∧
      r.hasErrors = false

namespace Session

/-- What the bytes received for the request, and then `data`, are parsed into, and what follows the header. -/
def answer (s : Session ρ δ) (data : Bytes) : ClientResponse × Bytes :=
  (ClientResponse.create s.isHeadRequest).handleData (s.stream ++ data)

variable [InflateClass δ]

def decodes (s : Session ρ δ) (data : Bytes) : Bool :=
  match s.conn.responseSink with
  | some sinks => (sinks.handleData data).2.isOk
  | none =>
    match ResponseSinks.create (δ := δ) (s.answer data).1 with
    | .error _ => false
    | .ok sinks => (sinks.handleData (s.answer data).2).2.isOk

/-- **What the server has to send.** A buffer that ends a response ends there, and the response is in order and keeps
the connection, unless the connection times out at that very moment; a response that ends with the connection is in
order as well. -/
structure Answered (s : Session ρ δ) (data : Bytes) (elapsed : UInt32) : Prop where
  ended : ∀ left, (s.answer data).1.isComplete = true → (s.answer data).1.left (s.answer data).2 = some left →
    s.decodes data = true →
    (s.answer data).1.hasErrors = false ∧
      (s.conn.idleTime + elapsed ≤ idleTimeout → (s.answer data).1.isKeepalive = true ∧ left = [])
  closed : data = [] → (s.answer data).1.isComplete = true → (s.answer data).1.getResponseLimitKind = .streamLimit →
    (s.answer data).1.hasErrors = false

end Session

/-! ### Steps without received data -/

/-- Where a session is after a step that is not about received data. -/
structure Steady (s s' : Session ρ δ) : Prop where
  follows : Follows s'.isHeadRequest s'.stream s'.conn
  waits : s'.conn.state = .wantWait → s.conn.state = .wantWait
  calls : ¬Succeeds s'.calls

variable {s : Session ρ δ}

theorem Steady.of_follows {w : Work ρ δ} (hw : Follows s.isHeadRequest s.stream w.conn)
    (hwaits : w.conn.state = .wantWait → s.conn.state = .wantWait) (hcalls : ¬Succeeds w.calls) :
    Steady s (s.after [] w) :=
  ⟨by simpa [Session.after] using hw, hwaits, hcalls⟩

variable {w w' : Work ρ δ}

theorem steady_proceed [RequestClass ρ] (hw : Follows s.isHeadRequest s.stream w.conn)
    (hwaits : w.conn.state = .wantWait → s.conn.state = .wantWait) (hcalls : ¬Succeeds w.calls)
    (h : proceed w = some w') : Steady s (s.after [] w') := by
  by_cases hstate : w.conn.state = .wantWait
  · have hactive : w.conn.active ≠ some .receive := fun hr => by simpa [hstate] using hw.reading hr
    rw [proceed_wantWait hstate] at h
    split_ifs at h <;> cases h
    · exact .of_follows (.of_idle (.inr rfl) hactive) (by simp) hcalls
    · exact .of_follows hw hwaits hcalls
  · have hquiet := proceed_quiet hw hstate h
    exact .of_follows hquiet.follows (fun hw' => absurd hw' hquiet.state) (by rwa [hquiet.calls])

theorem steady_cancel (hs : Follows s.isHeadRequest s.stream s.conn) :
    Steady s (s.after [] (ClientConnection.cancel ⟨s.conn, []⟩)) := by
  rcases hr : s.conn.request with _ | r
  · rw [cancel_of_none hr]
    exact .of_follows hs id (by simp [Succeeds])
  · have hactive : (ClientConnection.cancel ⟨s.conn, []⟩).conn.active ≠ some .receive := by
      simp only [ClientConnection.cancel, hr]
      intro hreceive
      split at hreceive
      · cases hreceive
      · cases hreceive
      · cases hreceive
      · rcases hs.reading hreceive with hstate | hstate <;> simp_all
    have hstate : (ClientConnection.cancel ⟨s.conn, []⟩).conn.state = .wantClose := cancel_state hr
    refine .of_follows (.of_idle (.inr hstate) hactive) (by simp [hstate]) ?_
    simp [ClientConnection.cancel, hr, Succeeds]

theorem handled_eq (hs : Follows s.isHeadRequest s.stream s.conn)
    (hstate : s.conn.state = .duringReceiveHeader ∨ s.conn.state = .duringReceivePayload) (data : Bytes) :
    ∃ rest, s.conn.handled data = some ((s.answer data).1, rest) ∧
      ∀ left, (s.answer data).1.left (s.answer data).2 = some left → rest = left := by
  have hsink : ∀ {sink : BodySink} {body left : Bytes}, sink.left body = some left →
      (sink.handleData body).2.2 = left := by
    intro sink body left hleft
    unfold BodySink.left at hleft
    split_ifs at hleft
    exact Option.some.inj hleft
  rcases hstate with hstate | hstate
  · obtain ⟨hnone, r, hr, -, -, hlater⟩ := hs.header (by simp [AwaitsHeader, hstate])
    have hanswer : r.handleData data = s.answer data := (hlater data).symm
    simp only [handled, hr, hnone, hanswer, Option.map_none, Option.getD_none, Option.bind_eq_bind, Option.bind_some]
    rcases hlimit : ResponseSinks.createLimit (s.answer data).1 with _ | sink
    · refine ⟨[], rfl, fun left hleft => ?_⟩
      simp [ClientResponse.left, hlimit] at hleft
    · refine ⟨_, rfl, fun left hleft => hsink ?_⟩
      simpa [ClientResponse.left, hlimit] using hleft
  · obtain ⟨r, body, sinks, hr, hsinks, hcomplete, -, hstream, -, hlater⟩ :=
      hs.payload (by simp [AwaitsPayload, hstate])
    have hstart : (ClientResponse.create s.isHeadRequest).Live := .inr (show HeaderState.initial ≠ .final by decide)
    have hanswer : s.answer data = (r, body ++ data) := by
      rw [Session.answer, ClientResponse.resumable.append hstart, hstream, ClientResponse.handleData_complete hcomplete]
    simp only [handled, hr, hsinks, hanswer, ClientResponse.handleData_complete hcomplete, Option.map_some,
      Option.getD_some, Option.bind_eq_bind, Option.bind_some, hlater]
    rcases hlimit : sinks.limit with _ | sink
    · refine ⟨[], rfl, fun left hleft => ?_⟩
      simp [ResponseSinks.left, hlimit] at hleft
    · refine ⟨_, rfl, fun left hleft => hsink ?_⟩
      simpa [ResponseSinks.left, hlimit] using hleft

/-! ### Receiving -/

section

variable [InflateClass δ] {s : Session ρ δ} {data : Bytes}

namespace Session

/-- The data ends the response, and can be decoded. -/
def Ends (s : Session ρ δ) (data : Bytes) : Prop :=
  (s.answer data).1.isComplete = true ∧ ((s.answer data).1.left (s.answer data).2).isSome = true ∧
    s.decodes data = true

/-- The response ends with the connection. -/
def Closes (s : Session ρ δ) (data : Bytes) : Prop :=
  data = [] ∧ (s.answer data).1.isComplete = true ∧ (s.answer data).1.getResponseLimitKind = .streamLimit

end Session

/-- What the processing of received data leads to, up to the timeouts. -/
structure Received (s : Session ρ δ) (data : Bytes) (w : Work ρ δ) : Prop where
  follows : Follows s.isHeadRequest (s.stream ++ data) w.conn
  waits : w.conn.state = .wantWait ↔ s.Ends data
  succeeds : Succeeds w.calls ↔ s.Ends data ∨ s.Closes data
  idleTime : s.Ends data → w.conn.idleTime = s.conn.idleTime
  state : w.conn.state ≠ .duringReceivePayload

theorem Received.of_quiet (h : Quiet s.isHeadRequest (s.stream ++ data) w w')
    (hcalls : ¬Succeeds w.calls) (hends : ¬s.Ends data) (hcloses : ¬s.Closes data)
    (hstate : w'.conn.state ≠ .duringReceivePayload) : Received s data w' := by
  refine ⟨h.follows, ?_, ?_, fun he => absurd he hends, hstate⟩
  · simp [h.state, hends]
  · simp [h.calls, hcalls, hends, hcloses]

variable [RequestClass ρ]

theorem receivePayload_received {r : ClientResponse} {sinks : ResponseSinks δ} {before rest : Bytes}
    (hanswer : s.answer data = (r, before ++ rest)) (hcomplete : r.isComplete = true) (hdata : data ≠ [])
    (hready : sinks.Ready) (hleft : ∀ later, r.left (before ++ later) = sinks.left later)
    (hdecodes : s.decodes data = (sinks.handleData rest).2.isOk)
    (hresponse : w.conn.response = some r) (hsinks : w.conn.responseSink = some sinks)
    (hactive : w.conn.active ≠ some .receive) (hidle : w.conn.idleTime = s.conn.idleTime)
    (hcalls : ¬Succeeds w.calls) (h : w.receivePayload rest = some w') : Received s data w' := by
  have hends : s.Ends data ↔ (sinks.left rest).isSome = true ∧ (sinks.handleData rest).2.isOk = true := by
    simp [Session.Ends, hanswer, hcomplete, hleft, hdecodes]
  have hcloses : ¬s.Closes data := fun h => hdata h.1
  unfold Work.receivePayload at h
  rcases hr : w.conn.request with _ | q <;> rw [hr] at h
  · cases h
  simp only [hsinks, Option.bind_eq_bind, Option.bind_some] at h
  have hpieces : ∀ {pieces : List Bytes},
      ¬Succeeds (w.calls ++ pieces.map fun piece => (q.object, Callback.handleResponseData piece)) := by
    intro pieces
    rwa [succeeds_append (by simp)]
  rcases hresult : sinks.handleData rest with ⟨pieces, e | sinks'⟩ <;> rw [hresult] at h <;> simp only at h
  · have hquiet : Quiet s.isHeadRequest (s.stream ++ data) _ w' := finish_quiet (by simp) (by exact hactive) h
    rw [Work.receptionFailed, Work.finish_eq rfl] at h
    cases h
    refine .of_quiet hquiet hpieces ?_ hcloses (by simp)
    simp [hends, hresult, Except.isOk, Except.toBool]
  · have hsecond : (sinks.handleData rest).2 = .ok sinks' := by rw [hresult]
    have hok : (sinks.handleData rest).2.isOk = true := by rw [hresult]; rfl
    obtain ⟨hdone, hmore⟩ := ResponseSinks.handleData_limit hsecond
    split_ifs at h with hc
    · rw [Work.finish_eq rfl] at h
      cases h
      have hyes : s.Ends data := hends.mpr ⟨by rw [← hdone, hc], hok⟩
      refine ⟨.of_idle (.inl rfl) hactive, by simp [hyes], ?_, fun _ => hidle, by simp⟩
      exact ⟨fun _ => .inl hyes, fun _ => ⟨q.object, by simp⟩⟩
    · cases h
      have hno : ¬s.Ends data := fun he => hc (by rw [hdone, (hends.mp he).1])
      obtain ⟨hready', hlater⟩ := hmore hready (by simpa using hc)
      have hopen : r.left (before ++ rest) = none := by
        rw [hleft, ← Option.not_isSome_iff_eq_none, ← hdone]
        simpa using hc
      refine ⟨⟨fun h => ?_, fun _ => ?_, fun h => absurd h hactive⟩, by simp [hno], ?_, fun _ => hidle, by simp⟩
      · simp [AwaitsHeader] at h
      · refine ⟨r, before ++ rest, sinks', hresponse, rfl, hcomplete, hready', hanswer, hopen, fun later => ?_⟩
        rw [List.append_assoc, hleft, hlater]
      · simp [hpieces, hno, hcloses]

theorem headerReceived_received {w : Work ρ δ} (hs : Follows s.isHeadRequest s.stream s.conn)
    (hstate : s.conn.state = .duringReceiveHeader) (hactive : s.conn.active ≠ some .receive)
    (h : Work.headerReceived ⟨s.conn, []⟩ = some w) : Received s s.conn.received w := by
  obtain ⟨hsink, r, hr, hlive, hopen, hlater⟩ := hs.header (by simp [AwaitsHeader, hstate])
  have hanswer : s.answer s.conn.received = r.handleData s.conn.received := hlater s.conn.received
  have hnone : ¬Succeeds ([] : Calls) := by simp [Succeeds]
  rcases hq : s.conn.request with _ | q
  · unfold Work.headerReceived Work.restartOrFail Work.receiveHeader at h
    simp [hq] at h
  -- No part of the response ends while its header is not complete.
  have hpending : (r.handleData s.conn.received).1.isComplete = false →
      ¬s.Ends s.conn.received ∧ ¬s.Closes s.conn.received := by
    intro hincomplete
    rw [← hanswer] at hincomplete
    exact ⟨fun he => by simp [he.1] at hincomplete, fun hc => by simp [hc.2.1] at hincomplete⟩
  unfold Work.headerReceived at h
  split_ifs at h with hdata
  · have hincomplete : (r.handleData s.conn.received).1.isComplete = false := by
      rw [hdata, ClientResponse.handleData_nil hlive, hopen]
    obtain ⟨hends, hcloses⟩ := hpending hincomplete
    have hclose := ((Work.restartOrFail_spec ⟨s.conn, []⟩ hq .serverError).of_eq h).2.2
    exact .of_quiet (restartOrFail_quiet hactive h) hnone hends hcloses (by simp [hclose])
  · rcases hparsed : r.handleData s.conn.received with ⟨r', rest⟩
    rw [hparsed] at hanswer hpending
    simp only [Work.receiveHeader, hq, hr, hparsed, Option.bind_eq_bind, Option.bind_some] at h
    have hcalls : ¬Succeeds ([] ++ [(q.object, Callback.handleResponseHeader)]) := by simp [Succeeds]
    split_ifs at h with hcomplete
    · rcases hcreate : ResponseSinks.create (δ := δ) r' with e | sinks <;> rw [hcreate] at h <;> simp only at h
      · have hquiet : Quiet s.isHeadRequest (s.stream ++ s.conn.received) _ w :=
          finish_quiet (by simp) (by exact hactive) h
        have hends : ¬s.Ends s.conn.received := fun he => by
          simpa [Session.decodes, hsink, hanswer, hcreate] using he.2.2
        rw [Work.receptionFailed, Work.finish_eq rfl] at h
        cases h
        exact .of_quiet hquiet hcalls hends (fun hc => hdata hc.1) (by simp)
      · obtain ⟨hready, hleft⟩ := ResponseSinks.create_ready hcreate
        have hdecodes : s.decodes s.conn.received = (sinks.handleData rest).2.isOk := by
          simp [Session.decodes, hsink, hanswer, hcreate]
        have hbody : s.answer s.conn.received = (r', [] ++ rest) := hanswer
        exact receivePayload_received hbody hcomplete hdata hready (fun later => (hleft later).symm) hdecodes rfl rfl
          hactive rfl hcalls h
    · cases h
      have hincomplete : r'.isComplete = false := by simpa using hcomplete
      obtain ⟨hends, hcloses⟩ := hpending hincomplete
      refine ⟨⟨fun _ => ⟨hsink, r', rfl, ?_, hincomplete, fun later => ?_⟩, fun h => ?_, fun h => absurd h hactive⟩,
        by simp [hends], by simp [hnone, hends, hcloses], fun he => absurd he hends, by simp⟩
      · have hkeeps := ClientResponse.resumable.keeps hlive s.conn.received
        rwa [hparsed] at hkeeps
      · have hrest : (r.handleData s.conn.received).2 = [] :=
          ClientResponse.handleData_incomplete hlive (by rw [hparsed, hincomplete])
        rw [List.append_assoc, hlater, ClientResponse.resumable.append hlive, hrest, hparsed, List.nil_append]
      · simp [AwaitsPayload] at h

theorem payloadReceived_received {w : Work ρ δ} (hs : Follows s.isHeadRequest s.stream s.conn)
    (hstate : s.conn.state = .duringReceivePayload) (hactive : s.conn.active ≠ some .receive)
    (h : Work.payloadReceived ⟨s.conn, []⟩ = some w) : Received s s.conn.received w := by
  obtain ⟨r, body, sinks, hr, hsinks, hcomplete, hready, hstream, hopen, hlater⟩ :=
    hs.payload (by simp [AwaitsPayload, hstate])
  have hnone : ¬Succeeds ([] : Calls) := by simp [Succeeds]
  have hstart : (ClientResponse.create s.isHeadRequest).Live := .inr (show HeaderState.initial ≠ .final by decide)
  have hanswer : ∀ data, s.answer data = (r, body ++ data) := by
    intro data
    rw [Session.answer, ClientResponse.resumable.append hstart, hstream, ClientResponse.handleData_complete hcomplete]
  rcases hq : s.conn.request with _ | q
  · unfold Work.payloadReceived Work.receivePayload Work.finish at h
    simp [hq] at h
  unfold Work.payloadReceived at h
  split_ifs at h with hdata
  · have hends : ¬s.Ends s.conn.received := fun he => by
      have hsome := he.2.1
      rw [hanswer, hdata, List.append_nil, hopen] at hsome
      cases hsome
    have hclosed : Follows s.isHeadRequest (s.stream ++ s.conn.received)
        ({ s.conn.reset with state := .wantClose } : ClientConnection ρ δ) := .of_idle (.inr rfl) hactive
    simp only [hr, Option.bind_eq_bind, Option.bind_some, Work.finish_eq (w := ⟨s.conn, []⟩) hq] at h
    split_ifs at h with hlimit <;> cases h
    · have hcloses : s.Closes s.conn.received := ⟨hdata, by rw [hanswer, hcomplete], by rw [hanswer, hlimit]⟩
      exact ⟨hclosed, by simp [hends], by simp [Succeeds, hcloses], fun he => absurd he hends, by simp⟩
    · have hcloses : ¬s.Closes s.conn.received := fun hc => hlimit (by rw [← hc.2.2, hanswer])
      exact ⟨hclosed, by simp [hends], by simp [Succeeds, hcloses, hends], fun he => absurd he hends, by simp⟩
  · have hdecodes : s.decodes s.conn.received = (sinks.handleData s.conn.received).2.isOk := by
      simp [Session.decodes, hsinks]
    exact receivePayload_received (hanswer _) hcomplete hdata hready hlater hdecodes hr hsinks hactive rfl hnone h

theorem Received.proceeds (hw : Received s data w) (h : proceed w = some w') :
    Follows s.isHeadRequest (s.stream ++ data) w'.conn ∧
      (w'.conn.state = .wantWait ↔ s.Ends data ∧ s.conn.idleTime ≤ idleTimeout) ∧
      (Succeeds w'.calls ↔ s.Ends data ∨ s.Closes data) := by
  by_cases hstate : w.conn.state = .wantWait
  · have hends := hw.waits.mp hstate
    have hactive : w.conn.active ≠ some .receive := fun hr => by simpa [hstate] using hw.follows.reading hr
    rw [proceed_wantWait hstate, hw.idleTime hends] at h
    split_ifs at h with hidle <;> cases h
    · exact ⟨.of_idle (.inr rfl) hactive, by simp [UInt32.not_le.mpr hidle], hw.succeeds⟩
    · exact ⟨hw.follows, by simp [hstate, hends, UInt32.not_lt.mp hidle], hw.succeeds⟩
  · have hquiet := proceed_quiet hw.follows hstate h
    have hends : ¬s.Ends data := fun he => hstate (hw.waits.mpr he)
    exact ⟨hquiet.follows, by simp [hquiet.state, hends], hquiet.calls.trans hw.succeeds⟩

variable {s' : Session ρ δ}

/-- **What received data leads to.** -/
theorem finish_received {elapsed : UInt32} (hs : Follows s.isHeadRequest s.stream s.conn)
    (h : s.step (.finish (.received data) elapsed) = some s') :
    Follows s'.isHeadRequest s'.stream s'.conn ∧
      (s.conn.state = .duringReceiveHeader ∨ s.conn.state = .duringReceivePayload) ∧
      (s'.conn.state = .wantWait ↔ s.Ends data ∧ s.conn.idleTime + elapsed ≤ idleTimeout) ∧
      (Succeeds s'.calls ↔ s.Ends data ∨ s.Closes data) := by
  rw [Session.step] at h
  split_ifs at h with hfits
  obtain ⟨hactive, -⟩ := of_decide_eq_true hfits
  obtain ⟨w, hw, h⟩ := Option.bind_eq_some_iff.mp h
  cases h
  have hstate := hs.reading hactive
  -- The session when the processing starts: the data is in the buffer, and the time has passed.
  let c : ClientConnection ρ δ := Transfer.apply s.conn (.received data)
  let t : Session ρ δ := { s with conn := aged c elapsed }
  have hidle : (aged c elapsed).active ≠ some .receive := by simp [aged, c, Transfer.apply]
  have ht : Follows t.isHeadRequest t.stream t.conn := ⟨hs.header, hs.payload, fun hr => absurd hr hidle⟩
  have hreceived : ∃ w₁, Received t data w₁ ∧ proceed w₁ = some w := by
    rw [show Transfer.kind (.received data) = .receive from rfl] at hw
    rw [show s.conn.self = c.self from rfl, handleEvent_received (c := c) hstate] at hw
    split_ifs at hw with hheader
    · obtain ⟨w₁, hw₁, hw⟩ := Option.bind_eq_some_iff.mp hw
      have hr := headerReceived_received ht hheader hidle hw₁
      have hskip : finishedIn .duringReceivePayload .receive (some ⟨c.self, .receive⟩) w₁.conn = false := by
        simp [finishedIn, hr.state]
      rw [when_of_false hskip] at hw
      exact ⟨w₁, hr, hw⟩
    · obtain ⟨w₁, hw₁, hw⟩ := Option.bind_eq_some_iff.mp hw
      exact ⟨w₁, payloadReceived_received ht (hstate.resolve_left hheader) hidle hw₁, hw⟩
  obtain ⟨w₁, hr, hw⟩ := hreceived
  obtain ⟨hfollows, hwaits, hsucceeds⟩ := hr.proceeds hw
  exact ⟨hfollows, hstate, hwaits, hsucceeds⟩

/-- **Every other step** leaves the response as it is, and does not bring a connection back to waiting. -/
theorem step_steady {a : ConnectionAct ρ} (hs : Follows s.isHeadRequest s.stream s.conn)
    (ha : ∀ data elapsed, a ≠ .finish (.received data) elapsed) (h : s.step a = some s') : Steady s s' := by
  have hnone : ¬Succeeds ([] : Calls) := by simp [Succeeds]
  cases a with
  | setNewRequest req =>
    obtain ⟨c, hc, h⟩ := Option.bind_eq_some_iff.mp h
    cases h
    unfold setNewRequest at hc
    split_ifs at hc with hwait
    cases hc
    have hactive : s.conn.active ≠ some .receive := fun hr => by simpa [hwait] using hs.reading hr
    refine ⟨⟨fun _ => ⟨rfl, _, rfl, .inr ?_, rfl, fun _ => rfl⟩, fun hp => ?_, fun hr => absurd hr hactive⟩,
      fun _ => hwait, hnone⟩
    · exact show HeaderState.initial ≠ .final by decide
    · simp [AwaitsPayload] at hp
  | finish transfer elapsed =>
    cases transfer with
    | received data => exact absurd rfl (ha data elapsed)
    | sent n =>
      rw [Session.step] at h
      split_ifs at h with hfits
      obtain ⟨w, hw, h⟩ := Option.bind_eq_some_iff.mp h
      cases h
      let c : ClientConnection ρ δ := aged (Transfer.apply s.conn (.sent n)) elapsed
      have hc : Follows s.isHeadRequest s.stream c :=
        ⟨hs.header, hs.payload, fun hr => by simp [c, aged, Transfer.apply] at hr⟩
      rw [show Transfer.kind (.sent n) = .send from rfl, handleEvent_sent] at hw
      obtain ⟨w₁, hw₁, hw⟩ := Option.bind_eq_some_iff.mp hw
      by_cases hsending : finishedIn .duringSend .send (some ⟨s.conn.self, .send⟩) c = true
      · rw [when_of_true hsending] at hw₁
        have hquiet := sendFinished_quiet hc (of_decide_eq_true hsending).1 hw₁
        exact steady_proceed hquiet.follows (fun hwait => absurd hwait hquiet.state) (by rwa [hquiet.calls]) hw
      · rw [when_of_false (by simpa using hsending)] at hw₁
        cases hw₁
        exact steady_proceed hc id hnone hw
  | event p elapsed =>
    rw [Session.step] at h
    split_ifs at h with hother
    obtain ⟨w, hw, h⟩ := Option.bind_eq_some_iff.mp h
    cases h
    have hp : ∀ kind, p ≠ some ⟨s.conn.self, kind⟩ := by
      rintro kind rfl
      simp at hother
    rw [handleEvent_other hp] at hw
    have haged : Follows s.isHeadRequest s.stream (aged s.conn elapsed) := ⟨hs.header, hs.payload, hs.reading⟩
    exact steady_proceed haged id hnone hw
  | cancelRequest id =>
    cases h
    unfold cancelRequest
    split
    · exact .of_follows hs (fun hwait => hwait) hnone
    · split_ifs
      · exact steady_cancel hs
      · exact .of_follows hs (fun hwait => hwait) hnone
  | cancel =>
    cases h
    exact steady_cancel hs
  | extractRequest =>
    obtain ⟨⟨q, c⟩, hc, h⟩ := Option.bind_eq_some_iff.mp h
    cases h
    unfold extractRequest at hc
    split_ifs at hc with hclose
    cases hc
    have hactive : s.conn.active ≠ some .receive := fun hr => by simpa [hclose] using hs.reading hr
    refine ⟨.of_idle (.inr hclose) hactive, ?_, hnone⟩
    simp [reset, hclose]

/-! ### Runs -/

theorem soundStep_iff {elapsed : UInt32} (hs : Follows s.isHeadRequest s.stream s.conn)
    (h : s.step (.finish (.received data) elapsed) = some s') :
    SoundStep ⟨s, .finish (.received data) elapsed, s'⟩ ↔ s.Answered data elapsed := by
  obtain ⟨-, hstate, hwaits, hsucceeds⟩ := finish_received hs h
  obtain ⟨rest, hhandled, hrest⟩ := handled_eq hs hstate data
  have hwait : s.conn.state ≠ .wantWait := by rcases hstate with hs | hs <;> simp [hs]
  constructor
  · intro hsound
    have hgood : Succeeds s'.calls → (s.answer data).1.hasErrors = false := by
      intro hcalls
      obtain ⟨data', elapsed', r, left, hact, hr, herrors⟩ := hsound.success hcalls
      cases hact
      cases hhandled.symm.trans hr
      exact herrors
    refine ⟨fun left hcomplete hleft hdecodes => ?_, fun hdata hcomplete hlimit => ?_⟩
    · have hends : s.Ends data := ⟨hcomplete, by rw [hleft, Option.isSome_some], hdecodes⟩
      refine ⟨hgood (hsucceeds.mpr (.inl hends)), fun hidle => ?_⟩
      obtain ⟨data', elapsed', r, hact, hr, -, hkeep⟩ := hsound.reuse hwait (hwaits.mpr ⟨hends, hidle⟩)
      cases hact
      cases hhandled.symm.trans hr
      exact ⟨hkeep, (hrest left hleft).symm⟩
    · exact hgood (hsucceeds.mpr (.inr ⟨hdata, hcomplete, hlimit⟩))
  · intro hanswered
    have hend : s.Ends data → ∃ left, (s.answer data).1.left (s.answer data).2 = some left ∧
        (s.answer data).1.hasErrors = false ∧
          (s.conn.idleTime + elapsed ≤ idleTimeout → (s.answer data).1.isKeepalive = true ∧ left = []) := by
      rintro ⟨hcomplete, hsome, hdecodes⟩
      obtain ⟨left, hleft⟩ := Option.isSome_iff_exists.mp hsome
      exact ⟨left, hleft, hanswered.ended left hcomplete hleft hdecodes⟩
    refine ⟨fun _ hpost => ?_, fun hcalls => ?_⟩
    · obtain ⟨hends, hidle⟩ := hwaits.mp hpost
      obtain ⟨left, hleft, herrors, hkeeps⟩ := hend hends
      obtain ⟨hkeep, rfl⟩ := hkeeps hidle
      obtain rfl := hrest [] hleft
      exact ⟨data, elapsed, _, rfl, hhandled, herrors, hkeep⟩
    · rcases hsucceeds.mp hcalls with hends | ⟨hdata, hcomplete, hlimit⟩
      · obtain ⟨left, -, herrors, -⟩ := hend hends
        exact ⟨data, elapsed, _, rest, rfl, hhandled, herrors⟩
      · exact ⟨data, elapsed, _, rest, rfl, hhandled, hanswered.closed hdata hcomplete hlimit⟩

theorem follows_step {a : ConnectionAct ρ} (h : s.step a = some s')
    (hs : Follows s.isHeadRequest s.stream s.conn) : Follows s'.isHeadRequest s'.stream s'.conn := by
  by_cases ha : ∃ data elapsed, a = .finish (.received data) elapsed
  · obtain ⟨data, elapsed, rfl⟩ := ha
    exact (finish_received hs h).1
  · exact (step_steady hs (fun data elapsed he => ha ⟨data, elapsed, he⟩) h).follows

/-- **Sound reuse.** In every run of a connection, it returns to waiting only after a response without errors that lets
it do so and with its buffer used up, and reports success only for responses without errors, exactly if all data it
receives is an answer as it should be. -/
theorem reuse_sound_iff (self : Nat) (name : Name) (scheme : Bytes) (acts : List (ConnectionAct ρ)) :
    (∀ t ∈ Run.trace Session.step (Session.create self name scheme : Session ρ δ) acts, SoundStep t) ↔
      ∀ t ∈ Run.trace Session.step (Session.create self name scheme : Session ρ δ) acts, ∀ data elapsed,
        t.act = .finish (.received data) elapsed → t.pre.Answered data elapsed := by
  have hstart : Follows false [] (ClientConnection.create self name scheme : ClientConnection ρ δ) :=
    .of_idle (.inl rfl) (by simp [ClientConnection.create])
  have hruns : ∀ t ∈ Run.trace Session.step (Session.create self name scheme : Session ρ δ) acts,
      Follows t.pre.isHeadRequest t.pre.stream t.pre.conn ∧ Follows t.post.isHeadRequest t.post.stream t.post.conn :=
    Run.forall_post (I := fun s : Session ρ δ => Follows s.isHeadRequest s.stream s.conn) follows_step hstart acts
  refine forall₂_congr fun t ht => ?_
  have hs := (hruns t ht).1
  have hstep := Run.step_of_mem_trace ht
  obtain ⟨s, a, s'⟩ := t
  by_cases ha : ∃ data elapsed, a = .finish (.received data) elapsed
  · obtain ⟨data, elapsed, rfl⟩ := ha
    rw [soundStep_iff hs hstep]
    constructor
    · intro hanswered data' elapsed' hact
      cases hact
      exact hanswered
    · intro hanswered
      exact hanswered data elapsed rfl
  · have hsteady := step_steady hs (fun data elapsed he => ha ⟨data, elapsed, he⟩) hstep
    constructor
    · intro _ data elapsed he
      exact absurd ⟨data, elapsed, he⟩ ha
    · intro _
      exact ⟨fun hpre hpost => absurd (hsteady.waits hpost) hpre, fun hcalls => absurd hcalls hsteady.calls⟩

end

def answeredRun (answers : List Bytes) : List (ConnectionAct GetRequest) :=
  [.setNewRequest ⟨0, 1, ⟨lit "h", false, false⟩⟩, .event none 0, .finish (.sent 18) 0] ++
    answers.map fun data => .finish (.received data) 0

def answeredTrace (answers : List Bytes) : List (Run.Taken (Session GetRequest Unit) (ConnectionAct GetRequest)) :=
  Run.trace Session.step (Session.create 0 ⟨lit "h", lit "80"⟩ (lit "http")) (answeredRun answers)

/-- A server of version 1.0 closes the connection after its response, but the connection offers itself for the next
request; a server that does not speak the protocol at all makes a request successful by closing the connection. -/
theorem reuse_of_closed_connection :
    (¬∀ t ∈ answeredTrace [lit "HTTP/1.0 200 OK\r\nContent-Length: 0\r\n\r\n"], SoundStep t) ∧
      ¬∀ t ∈ answeredTrace [lit "SSH-2.0\r\n", []], SoundStep t := by
  refine ⟨fun h => ?_, fun h => ?_⟩
  · have hsound := h _ (List.get_mem _ ⟨3, by decide⟩)
    obtain ⟨data, elapsed, r, hact, hr, -, hkeep⟩ := hsound.reuse (by decide) (by decide)
    cases hact
    have hclose := congrArg (Option.map fun t => t.1.isKeepalive) hr
    rw [Option.map_some, hkeep] at hclose
    exact absurd hclose (by decide)
  · have hsound := h _ (List.get_mem _ ⟨4, by decide⟩)
    obtain ⟨data, elapsed, r, left, hact, hr, hgood⟩ := hsound.success ⟨0, by decide⟩
    cases hact
    have herrors := congrArg (Option.map fun t => t.1.hasErrors) hr
    rw [Option.map_some, hgood] at herrors
    exact absurd herrors (by decide)

end Afl.Net.Http
