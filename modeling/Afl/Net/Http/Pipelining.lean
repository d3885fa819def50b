import Afl.Net.Http.Message

/-!
# Pipelining

What a server connection is for: every request gets a response of its own, which is given exactly the body of that
request, in the order of the requests, up to the first exchange that does not keep the connection alive. `Serves` and
`Sends` say this without reference to buffers; `pipelining` is that the protocol handler does it, however the requests
are cut into buffers and whenever `getOperation` is called.

`Tracks` relates the state of the handler to the part of the stream that it has not seen yet; one turn of `handleData`
keeps it, because each of the three parsers stops exactly where the next one has to begin.
-/

namespace Afl.Net.Http

open Feed ProtocolHandler
open List (forall_iff_forall_mem)

variable {δ ρ : Type} (d : Dispatcher δ ρ)

/-! ### The purpose -/

/-- A response that was given exactly `content`, in some pieces, and then was told that this is all. -/
def Receives (response : Response ρ) (content : Bytes) (final : Response ρ) : Prop :=
  ∃ pieces : List Bytes, pieces.flatten = content ∧
    final = (pieces.foldl (Response.handleData d) response).handleDataComplete d

/-- The exchanges of a connection: the dispatcher is asked for a response to each message in turn, the responses
end up as `finals`, and the connection is to be closed after the first exchange that is not keep-alive. -/
inductive Serves : δ → List Message → List (Response ρ) → δ → Bool → Prop
  | nil (dispatcher : δ) : Serves dispatcher [] [] dispatcher false
  | keep {dispatcher dispatcher' : δ} {m : Message} {msgs : List Message} {final : Response ρ}
      {finals : List (Response ρ)} {closed : Bool}
      (hfinal : Receives d (dispatch d dispatcher m.request).1 m.body.content final)
      (hkeep : (m.request.isKeepalive && final.isKeepalive d) = true)
      (hrest : Serves (dispatch d dispatcher m.request).2 msgs finals dispatcher' closed) :
      Serves dispatcher (m :: msgs) (final :: finals) dispatcher' closed
  | close {dispatcher : δ} {m : Message} {msgs : List Message} {final : Response ρ}
      (hfinal : Receives d (dispatch d dispatcher m.request).1 m.body.content final)
      (hclose : (m.request.isKeepalive && final.isKeepalive d) = false) :
      Serves dispatcher (m :: msgs) [final] (dispatch d dispatcher m.request).2 true

/-- Sending responses one after another: each gives data until it has no more. -/
inductive Sends : List (Response ρ) → List Bytes → List (Response ρ) → Prop
  | refl (queue : List (Response ρ)) : Sends queue [] queue
  | data {r : Response ρ} {queue queue' : List (Response ρ)} {out : List Bytes} (hdata : (r.getData d).1 ≠ [])
      (hrest : Sends ((r.getData d).2 :: queue) out queue') : Sends (r :: queue) ((r.getData d).1 :: out) queue'
  | finish {r : Response ρ} {queue queue' : List (Response ρ)} {out : List Bytes} (hdata : (r.getData d).1 = [])
      (hrest : Sends queue out queue') : Sends (r :: queue) out queue'

def reported (ops : List Operation) : List Bytes := (ops.map Operation.dataToSend).filter (· ≠ [])

variable {d}

theorem Serves.snoc {dispatcher dispatcher' : δ} {msgs : List Message} {finals : List (Response ρ)} {closed : Bool}
    (h : Serves d dispatcher msgs finals dispatcher' closed) {m : Message} {final : Response ρ} (hopen : closed = false)
    (hfinal : Receives d (dispatch d dispatcher' m.request).1 m.body.content final) :
    Serves d dispatcher (msgs ++ [m]) (finals ++ [final]) (dispatch d dispatcher' m.request).2
      (!(m.request.isKeepalive && final.isKeepalive d)) := by
  induction h with
  | nil dispatcher =>
    cases hkeep : m.request.isKeepalive && final.isKeepalive d
    · exact .close hfinal hkeep
    · exact .keep hfinal hkeep (.nil _)
  | keep hfinal' hkeep' _ ih => exact .keep hfinal' hkeep' (ih hopen hfinal)
  | close _ _ => cases hopen

theorem Sends.snoc {queue queue' : List (Response ρ)} {out : List Bytes} (h : Sends d queue out queue')
    (r : Response ρ) : Sends d (queue ++ [r]) out (queue' ++ [r]) := by
  induction h with
  | refl queue => exact .refl _
  | data hdata _ ih => exact .data hdata ih
  | finish hdata _ ih => exact .finish hdata ih

theorem Sends.trans {queue queue' queue'' : List (Response ρ)} {out out' : List Bytes} (h : Sends d queue out queue')
    (h' : Sends d queue' out' queue'') : Sends d queue (out ++ out') queue'' := by
  induction h with
  | refl queue => exact h'
  | data hdata _ ih => exact .data hdata (ih h')
  | finish hdata _ ih => exact .finish hdata (ih h')

theorem sends_sendLoop (queue : List (Response ρ)) :
    Sends d queue (if (sendLoop d queue).1 = [] then [] else [(sendLoop d queue).1]) (sendLoop d queue).2 ∧
      ((sendLoop d queue).1 = [] → (sendLoop d queue).2 = []) := by
  induction queue with
  | nil => exact ⟨.refl [], fun _ => rfl⟩
  | cons r queue ih =>
    rw [sendLoop]
    by_cases hdata : (r.getData d).1 = []
    · simp only [hdata, ne_eq, not_true_eq_false, if_false]
      exact ⟨.finish hdata ih.1, ih.2⟩
    · simp only [hdata, ne_eq, not_false_eq_true, if_true, if_false]
      exact ⟨.data hdata (.refl _), fun h => absurd h (by simp)⟩

/-! ### Following the stream -/

/-- The handler has served some messages, has `msgs` before it, and the stream goes on with `stream`. -/
inductive Tracks (dispatcher : δ) (msgs : List Message) (stream : Bytes) (closed : Bool) :
    ProtocolHandler δ ρ → Prop
  /-- Between requests, at the end of the stream. -/
  | idle {h : ProtocolHandler δ ρ} (hstate : h.state = .readingRequest) (hdispatcher : h.dispatcher = dispatcher)
      (hopen : closed = false) (hmsgs : msgs = []) (hstream : stream = []) : Tracks dispatcher msgs stream closed h
  /-- In a head, of which `head` is still to come. -/
  | head {h : ProtocolHandler δ ρ} {m : Message} {rest : List Message} {head : Bytes}
      (hstate : h.state = .readingRequest) (hdispatcher : h.dispatcher = dispatcher) (hopen : closed = false)
      (hmsgs : msgs = m :: rest) (hstream : stream = head ++ (m.body.encode ++ encodeAll rest))
      (hlive : h.request.Live) (hrun : run Request.feed h.request head = .done m.request [])
      (hlength : h.requestHeaderLength + head.length ≤ m.head.length) : Tracks dispatcher msgs stream closed h
  /-- In a body, of which `encoded` is still to come. -/
  | body {h : ProtocolHandler δ ρ} {m : Message} {rest : List Message} {pieces : List Bytes} {sink : BodySink}
      {encoded decoded : Bytes}
      (hstate : h.state = .readingData (pieces.foldl (Response.handleData d) (dispatch d dispatcher m.request).1) sink
        m.request.isKeepalive)
      (hdispatcher : h.dispatcher = (dispatch d dispatcher m.request).2) (hopen : closed = false)
      (hmsgs : msgs = m :: rest) (hstream : stream = encoded ++ encodeAll rest)
      (hrequest : h.request = .create) (hlength : h.requestHeaderLength = 0)
      (hdecodes : sink.Decodes encoded decoded) (hcontent : m.body.content = pieces.flatten ++ decoded)
      (hne : encoded ≠ []) : Tracks dispatcher msgs stream closed h
  /-- After an exchange that was not keep-alive. -/
  | closed {h : ProtocolHandler δ ρ} (hstate : h.state = .close) (hdispatcher : h.dispatcher = dispatcher)
      (hclosed : closed = true) : Tracks dispatcher msgs stream closed h

/-- The handler on the way through the messages `msgs`, when `out` has been reported and `stream` is to come. -/
structure Good (d : Dispatcher δ ρ) (start : δ) (msgs : List Message) (out : List Bytes) (stream : Bytes)
    (h : ProtocolHandler δ ρ) : Prop where
  hmax : ∀ m ∈ msgs, m.head.length < h.maxRequestHeaderLength
  track : ∃ served rest finals dispatcher closed, msgs = served ++ rest ∧
    Serves d start served finals dispatcher closed ∧ Sends d finals out h.finishedResponses ∧
    Tracks (d := d) dispatcher rest stream closed h

variable {start dispatcher : δ} {msgs served rest : List Message} {out : List Bytes} {finals : List (Response ρ)}
  {h : ProtocolHandler δ ρ}

theorem tracks_start (hstate : h.state = .readingRequest) (hdispatcher : h.dispatcher = dispatcher)
    (hrequest : h.request = .create) (hlength : h.requestHeaderLength = 0) (rest : List Message) :
    Tracks (d := d) dispatcher rest (encodeAll rest) false h := by
  cases rest with
  | nil => exact .idle hstate hdispatcher rfl rfl rfl
  | cons m rest =>
    refine .head hstate hdispatcher rfl rfl ?_ (hrequest ▸ Request.live_create) (hrequest ▸ m.head_run) ?_
    · simp [encodeAll, Message.encode]
    · rw [hlength, Nat.zero_add]

theorem finishResponse_good {m : Message} {pieces : List Bytes}
    (hmax : ∀ m ∈ msgs, m.head.length < h.maxRequestHeaderLength) (hmsgs : msgs = served ++ m :: rest)
    (hserves : Serves d start served finals dispatcher false) (hsends : Sends d finals out h.finishedResponses)
    (hdispatcher : h.dispatcher = (dispatch d dispatcher m.request).2) (hrequest : h.request = .create)
    (hlength : h.requestHeaderLength = 0) (hpieces : pieces.flatten = m.body.content) :
    Good d start msgs out (encodeAll rest)
      (h.finishResponse d (pieces.foldl (Response.handleData d) (dispatch d dispatcher m.request).1)
        m.request.isKeepalive) := by
  have hfinal : Receives d (dispatch d dispatcher m.request).1 m.body.content
      ((pieces.foldl (Response.handleData d) (dispatch d dispatcher m.request).1).handleDataComplete d) :=
    ⟨pieces, hpieces, rfl⟩
  refine ⟨hmax, served ++ [m], rest, _, _, _, by simp [hmsgs], hserves.snoc rfl hfinal, hsends.snoc _, ?_⟩
  cases hkeep : m.request.isKeepalive &&
    ((pieces.foldl (Response.handleData d) (dispatch d dispatcher m.request).1).handleDataComplete d).isKeepalive d
  · exact .closed (by simp [finishResponse, hkeep]) hdispatcher rfl
  · have hstate : (h.finishResponse d (pieces.foldl (Response.handleData d) (dispatch d dispatcher m.request).1)
        m.request.isKeepalive).state = .readingRequest := by
      simp [finishResponse, hkeep]
    exact tracks_start hstate hdispatcher hrequest hlength rest

theorem readData_good {m : Message} (pieces : List Bytes) {sink : BodySink} {encoded decoded data later : Bytes}
    (hmax : ∀ m ∈ msgs, m.head.length < h.maxRequestHeaderLength) (hmsgs : msgs = served ++ m :: rest)
    (hserves : Serves d start served finals dispatcher false) (hsends : Sends d finals out h.finishedResponses)
    (hstate : h.state = .readingData (pieces.foldl (Response.handleData d) (dispatch d dispatcher m.request).1) sink
      m.request.isKeepalive)
    (hdispatcher : h.dispatcher = (dispatch d dispatcher m.request).2) (hrequest : h.request = .create)
    (hlength : h.requestHeaderLength = 0) (hstream : data ++ later = encoded ++ encodeAll rest)
    (hdecodes : sink.Decodes encoded decoded) (hcontent : m.body.content = pieces.flatten ++ decoded) :
    Good d start msgs out ((h.readData d data).2 ++ later) (h.readData d data).1 ∧
      (h.readData d data).2.length ≤ data.length ∧
      (encoded ≠ [] → data ≠ [] → (h.readData d data).2.length < data.length) := by
  have hhandled := BodySink.handleData_spec hdecodes hstream
  have hread : h.readData d data =
      if (sink.handleData data).2.1.isComplete then
        (h.finishResponse d ((pieces ++ (sink.handleData data).1).foldl (Response.handleData d)
          (dispatch d dispatcher m.request).1) m.request.isKeepalive, (sink.handleData data).2.2)
      else ({ h with state := .readingData ((pieces ++ (sink.handleData data).1).foldl (Response.handleData d)
          (dispatch d dispatcher m.request).1) (sink.handleData data).2.1 m.request.isKeepalive },
          (sink.handleData data).2.2) := by
    simp [readData, hstate, List.foldl_append]
  rw [hread]
  generalize sink.handleData data = r at hhandled
  cases hhandled with
  | @complete pieces' sink' rest' hcomplete hdata hpieces =>
    rw [hdata, List.append_assoc, List.append_cancel_left_eq] at hstream
    simp only [hcomplete, if_true, hstream]
    refine ⟨?_, ?_, ?_⟩
    · refine finishResponse_good hmax hmsgs hserves hsends hdispatcher hrequest hlength ?_
      rw [List.flatten_append, hpieces, hcontent]
    · simp [hdata]
    · intro hne _
      have hpos := List.length_pos_of_ne_nil hne
      rw [hdata, List.length_append]
      omega
  | @incomplete pieces' sink' encoded' decoded' hcomplete hdata hpieces hrest =>
    rw [hdata, List.append_assoc, List.append_cancel_left_eq] at hstream
    simp only [hcomplete, Bool.false_eq_true, if_false, List.nil_append, hstream]
    refine ⟨⟨hmax, served, m :: rest, finals, dispatcher, false, hmsgs, hserves, hsends, ?_⟩, Nat.zero_le _, ?_⟩
    · refine .body rfl hdispatcher rfl rfl rfl hrequest hlength hrest ?_ (hrest.ne_nil hcomplete)
      rw [hcontent, hpieces, List.flatten_append, List.append_assoc]
    · intro _ hne
      exact List.length_pos_of_ne_nil hne

theorem turn_good {data later : Bytes} (hgood : Good d start msgs out (data ++ later) h) (hdata : data ≠ [])
    (hclosed : h.isClosed = false) :
    Good d start msgs out ((h.turn d data).2 ++ later) (h.turn d data).1 ∧ (h.turn d data).2.length < data.length := by
  obtain ⟨hmax, served, rest, finals, dispatcher, closed, hmsgs, hserves, hsends, htrack⟩ := hgood
  cases htrack with
  | idle hstate hdispatcher hopen hrest hstream => simp [hdata] at hstream
  | @head m rest' head hstate hdispatcher hopen hrest hstream hlive hrun hlength =>
    subst hopen hrest hdispatcher
    have hhandle := Request.handleData_eq_run hlive data
    rcases run_cut hrun hstream with ⟨after, hhead, hr⟩ | ⟨head', r, -, hhead, hr, hr'⟩ <;> rw [hr] at hhandle
    · -- the head ends in this buffer, and the body begins behind it
      have hturn : h.turn d data = (h.digestRequest d m.request).readData d after := by
        simp [turn, readRequest, hstate, hhandle, Request.ofRun, Message.request_isFinished]
      rw [hhead, List.append_assoc, List.append_cancel_left_eq] at hstream
      obtain ⟨hgood, hle, -⟩ := readData_good [] (h := h.digestRequest d m.request) hmax hmsgs hserves hsends
        rfl rfl rfl rfl hstream m.body_decodes rfl
      have hpos := run_done_length hrun
      rw [hturn]
      refine ⟨hgood, ?_⟩
      rw [hhead, List.length_append]
      simp only [List.length_nil] at hpos
      omega
    · -- the buffer holds a part of the head
      have hlive' : r.Live := Request.live_advance hlive (advance_of_run hr)
      have hshort : ¬data.length ≥ h.maxRequestHeaderLength - h.requestHeaderLength := by
        have hm := hmax m (by simp [hmsgs])
        have hpos : 0 < head'.length := by
          have := run_done_length hr'
          omega
        rw [hhead, List.length_append] at hlength
        omega
      have hturn : h.turn d data =
          ({ h with request := r, requestHeaderLength := h.requestHeaderLength + data.length }, []) := by
        simp [turn, readRequest, readData, hstate, hhandle, Request.ofRun, hlive'.unfinished, hshort]
      rw [hhead, List.append_assoc, List.append_cancel_left_eq] at hstream
      rw [hturn]
      refine ⟨⟨hmax, served, m :: rest', finals, h.dispatcher, false, hmsgs, hserves, hsends, ?_⟩,
        List.length_pos_of_ne_nil hdata⟩
      refine .head hstate rfl rfl rfl hstream hlive' hr' ?_
      rw [hhead, List.length_append] at hlength
      simp only
      omega
  | @body m rest' pieces sink encoded decoded hstate hdispatcher hopen hrest hstream hrequest hlength hdecodes hcontent
      hne =>
    subst hopen hrest
    have hturn : h.turn d data = h.readData d data := by simp [turn, readRequest, hstate]
    rw [hturn]
    obtain ⟨hgood, -, hless⟩ := readData_good pieces hmax hmsgs hserves hsends hstate hdispatcher hrequest hlength hstream
      hdecodes hcontent
    exact ⟨hgood, hless hne hdata⟩
  | closed hstate hdispatcher _ => simp [isClosed, hstate] at hclosed

theorem handleData_good {data later : Bytes} (hgood : Good d start msgs out (data ++ later) h) :
    Good d start msgs out later (h.handleData d data) := by
  -- a closed handler does not look at the stream any more
  have hclosed : ∀ {h : ProtocolHandler δ ρ} {stream : Bytes}, Good d start msgs out stream h → h.isClosed = true →
      Good d start msgs out later h := by
    intro h stream hgood hclosed
    obtain ⟨hmax, served, rest, finals, dispatcher, closed, hmsgs, hserves, hsends, htrack⟩ := hgood
    refine ⟨hmax, served, rest, finals, dispatcher, closed, hmsgs, hserves, hsends, ?_⟩
    cases htrack with
    | idle hstate => simp [isClosed, hstate] at hclosed
    | head hstate => simp [isClosed, hstate] at hclosed
    | body hstate => simp [isClosed, hstate] at hclosed
    | closed hstate hdispatcher hc => exact .closed hstate hdispatcher hc
  obtain ⟨result, hresult, hend⟩ := turns_spec isClosed (turn d) (fun _ => 0)
    (I := fun h data => Good d start msgs out (data ++ later) h)
    (S := fun _ _ result => Good d start msgs out later result.1)
    (fun {h data} hgood hend => by
      rcases hend with rfl | hend
      · exact hgood
      · exact hclosed hgood hend)
    (fun {h data} hgood hdata hc => by
      obtain ⟨hnext, hless⟩ := turn_good hgood hdata hc
      exact ⟨hnext, hless, fun _ => id⟩)
    hgood (show data.length + 0 < data.length + 2 by omega)
  rw [handleData, hresult, Option.getD_some]
  exact hend

theorem getOperation_good {stream : Bytes} (hgood : Good d start msgs out stream h) :
    Good d start msgs (out ++ reported [(h.getOperation d).1]) stream (h.getOperation d).2 := by
  obtain ⟨hmax, served, rest, finals, dispatcher, closed, hmsgs, hserves, hsends, htrack⟩ := hgood
  have hloop := (sends_sendLoop (d := d) h.finishedResponses).1
  have hreported : reported [(h.getOperation d).1] =
      if (sendLoop d h.finishedResponses).1 = [] then [] else [(sendLoop d h.finishedResponses).1] := by
    by_cases hdata : (sendLoop d h.finishedResponses).1 = [] <;> simp [reported, getOperation, hdata]
  have hnext : (h.getOperation d).2 = { h with finishedResponses := (sendLoop d h.finishedResponses).2 } := by
    by_cases hdata : (sendLoop d h.finishedResponses).1 = [] <;> simp [getOperation, hdata]
  rw [hreported, hnext]
  refine ⟨hmax, served, rest, finals, dispatcher, closed, hmsgs, hserves, hsends.trans hloop, ?_⟩
  cases htrack with
  | idle hstate hdispatcher hopen hrest hstream => exact .idle hstate hdispatcher hopen hrest hstream
  | head hstate hdispatcher hopen hrest hstream hlive hrun hlength =>
    exact .head hstate hdispatcher hopen hrest hstream hlive hrun hlength
  | body hstate hdispatcher hopen hrest hstream hrequest hlength hdecodes hcontent hne =>
    exact .body hstate hdispatcher hopen hrest hstream hrequest hlength hdecodes hcontent hne
  | closed hstate hdispatcher hclosed => exact .closed hstate hdispatcher hclosed

theorem reported_cons (op : Operation) (ops : List Operation) : reported (op :: ops) = reported [op] ++ reported ops := by
  rw [reported, reported, reported, ← List.filter_append, ← List.map_append, List.singleton_append]

theorem interact_good (actions : List Action) {later : Bytes}
    (hgood : Good d start msgs out (received actions ++ later) h) :
    Good d start msgs (out ++ reported (interact d h actions).1) later (interact d h actions).2 := by
  induction actions generalizing h out with
  | nil => simpa [interact, received, reported] using hgood
  | cons action actions ih =>
    cases action with
    | handleData bytes =>
      rw [received, List.append_assoc] at hgood
      exact ih (handleData_good hgood)
    | getOperation =>
      have hrest := ih (getOperation_good hgood)
      rw [interact, reported_cons, ← List.append_assoc]
      exact hrest

/-! ### The result -/

/-- What the dispatcher has been asked for beyond the messages served: nothing, or a response to the next one, which
then has been given the beginning of that one's body. -/
inductive Pending (d : Dispatcher δ ρ) (dispatcher : δ) (rest : List Message) (closed : Bool)
    (h : ProtocolHandler δ ρ) : Prop
  | nothing (hdispatcher : h.dispatcher = dispatcher)
  | next (m : Message) (pieces : List Bytes) (sink : BodySink) (hrest : rest.head? = some m) (hopen : closed = false)
      (hdispatcher : h.dispatcher = (dispatch d dispatcher m.request).2)
      (hstate : h.state = .readingData (pieces.foldl (Response.handleData d) (dispatch d dispatcher m.request).1) sink
        m.request.isKeepalive)
      (hbody : pieces.flatten <+: m.body.content)

theorem Tracks.pending {stream : Bytes} {closed : Bool} (ht : Tracks (d := d) dispatcher rest stream closed h) :
    Pending d dispatcher rest closed h := by
  cases ht with
  | idle _ hdispatcher => exact .nothing hdispatcher
  | head _ hdispatcher => exact .nothing hdispatcher
  | @body m rest' pieces sink _ decoded hstate hdispatcher hopen hrest _ _ _ _ hcontent _ =>
    exact .next m pieces sink (by simp [hrest]) hopen hdispatcher hstate ⟨decoded, hcontent.symm⟩
  | closed _ hdispatcher => exact .nothing hdispatcher

theorem Tracks.complete {closed : Bool} (ht : Tracks (d := d) dispatcher rest [] closed h) (hopen : closed = false) :
    rest = [] := by
  cases ht with
  | idle _ _ _ hrest _ => exact hrest
  | head _ _ _ _ hstream _ hrun _ =>
    have hlength := run_done_length hrun
    simp only [List.nil_eq_append_iff] at hstream
    rw [hstream.1] at hlength
    exact absurd hlength (Nat.lt_irrefl _)
  | body _ _ _ _ hstream _ _ _ _ hne =>
    simp only [List.nil_eq_append_iff] at hstream
    exact absurd hstream.1 hne
  | closed _ _ hclosed =>
    rw [hopen] at hclosed
    cases hclosed

theorem Tracks.isClosed_eq {stream : Bytes} {closed : Bool} (ht : Tracks (d := d) dispatcher rest stream closed h) :
    h.isClosed = closed := by
  cases ht with
  | idle hstate _ hopen => simp [isClosed, hstate, hopen]
  | head hstate _ hopen => simp [isClosed, hstate, hopen]
  | body hstate _ hopen => simp [isClosed, hstate, hopen]
  | closed hstate _ hclosed => simp [isClosed, hstate, hclosed]

/-- **Pipelining.** Let a run receive the encodings of well-formed requests, or a beginning of them, cut into buffers
in any way and with calls of `getOperation` anywhere. Then the handler has served the first of these requests in
order: each response was given exactly the decoded body of its request and one `handleDataComplete`, and nothing was
served after the first exchange that is not keep-alive. What was reported for sending is what these responses gave, in
order, and the next `getOperation` reports more of it, if there is more, or else requests a close exactly if there was
such an exchange. When all was received and there was none, all requests are served. -/
theorem pipelining (d : Dispatcher δ ρ) (start : δ) (maxRequestHeaderLength : Nat) (msgs : List Message)
    (hmax : ∀ m ∈ msgs, m.head.length < maxRequestHeaderLength) (actions : List Action) (later : Bytes)
    (hcut : received actions ++ later = encodeAll msgs) :
    ∃ ops h, interact d (create start maxRequestHeaderLength) actions = (ops, h) ∧
      ∃ served rest finals dispatcher closed, msgs = served ++ rest ∧
        Serves d start served finals dispatcher closed ∧ Pending d dispatcher rest closed h ∧
        Sends d finals (reported ops) h.finishedResponses ∧
        ((h.getOperation d).1.dataToSend ≠ [] → (h.getOperation d).1.close = false) ∧
        ((h.getOperation d).1.dataToSend = [] →
          Sends d finals (reported ops) [] ∧ (h.getOperation d).1.close = closed) ∧
        (later = [] → closed = false → rest = []) := by
  have hstart : Good d start msgs [] (received actions ++ later) (create start maxRequestHeaderLength) := by
    rw [hcut]
    have htrack : Tracks (d := d) start msgs (encodeAll msgs) false (create start maxRequestHeaderLength) :=
      tracks_start (h := create start maxRequestHeaderLength) rfl rfl rfl rfl msgs
    exact ⟨hmax, [], msgs, [], start, false, rfl, .nil start, .refl [], htrack⟩
  have hgood := interact_good actions hstart
  rw [List.nil_append] at hgood
  rcases hrun : interact d (create start maxRequestHeaderLength) actions with ⟨ops, h⟩
  rw [hrun] at hgood
  obtain ⟨-, served, rest, finals, dispatcher, closed, hmsgs, hserves, hsends, htrack⟩ := hgood
  obtain ⟨hloop, hlast⟩ := sends_sendLoop (d := d) h.finishedResponses
  refine ⟨ops, h, rfl, served, rest, finals, dispatcher, closed, hmsgs, hserves, htrack.pending, hsends, ?_, ?_, ?_⟩
  · intro hdata
    by_cases hnone : (sendLoop d h.finishedResponses).1 = [] <;> simp [getOperation, hnone] at hdata ⊢
  · intro hdata
    have hnone : (sendLoop d h.finishedResponses).1 = [] := by
      by_contra hne
      simp [getOperation, hne] at hdata
    rw [if_pos hnone, hlast hnone] at hloop
    refine ⟨by simpa using hsends.trans hloop, ?_⟩
    simpa [getOperation, hnone, isClosed] using htrack.isClosed_eq
  · rintro rfl hopen
    exact htrack.complete hopen

/-- A dispatcher whose responses send back the body they got. -/
def echo : Dispatcher Unit (Bytes × Bool) where
  createNewResponse _ _ := (some ([], false), ())
  handleData r data := (r.1 ++ data, r.2)
  handleDataComplete r := r
  isKeepalive _ := true
  getData r := if r.2 then ([], r) else (r.1, (r.1, true))

def lengthLine : HeaderLine :=
  ⟨lit "content-length", lit " 2", [], by decide, forall_iff_forall_mem.mp (by decide), forall_iff_forall_mem.mp (by decide),
    by simp⟩

def chunkedLine : HeaderLine :=
  ⟨lit "Transfer-Encoding", [], [lit " chunked"], by decide, forall_iff_forall_mem.mp (by decide), by simp,
    by simpa using ⟨32, lit "chunked", rfl, rfl, forall_iff_forall_mem.mp (by decide)⟩⟩

def lastChunk : Trailer :=
  ⟨lit "00", [], [lit "X: y"], forall_iff_forall_mem.mp (by decide), by decide, .inl rfl,
    by simpa using ⟨by decide, forall_iff_forall_mem.mp (by decide)⟩⟩

def lengthMessage : Message where
  method := lit "POST"
  path := lit "/a"
  minor := lit "1"
  lines := [lengthLine]
  body := .length (lit "hi")
  hmethod := by decide
  hmethodBytes := forall_iff_forall_mem.mp (by decide)
  hpath := by decide
  hpathBytes := forall_iff_forall_mem.mp (by decide)
  hminor := by decide
  hminorBytes := forall_iff_forall_mem.mp (by decide)
  hbody := ⟨rfl, lengthLine.field, rfl, by decide⟩

def chunkedMessage : Message where
  method := lit "POST"
  path := lit "/b"
  minor := lit "1"
  lines := [chunkedLine]
  body := .chunked
    [⟨lit "0a", lit ";x", lit "0123456789", forall_iff_forall_mem.mp (by decide), by decide,
      .inr ⟨lit "x", rfl, forall_iff_forall_mem.mp (by decide)⟩, by decide, by decide⟩] lastChunk
  hmethod := by decide
  hmethodBytes := forall_iff_forall_mem.mp (by decide)
  hpath := by decide
  hpathBytes := forall_iff_forall_mem.mp (by decide)
  hminor := by decide
  hminorBytes := forall_iff_forall_mem.mp (by decide)
  hbody := ⟨chunkedLine.field, rfl, by decide⟩

/-- The two requests in buffers that do not respect their borders. -/
def twoRequests : List Action :=
  let bytes := encodeAll [lengthMessage, chunkedMessage]
  [.handleData (bytes.take 50), .getOperation, .handleData (bytes.drop 50), .getOperation]

theorem pipelining_twoRequests :
    ∃ ops h, interact echo (create () 32768) twoRequests = (ops, h) ∧
      ∃ served rest finals dispatcher closed, [lengthMessage, chunkedMessage] = served ++ rest ∧
        Serves echo () served finals dispatcher closed ∧ Pending echo dispatcher rest closed h ∧
        Sends echo finals (reported ops) h.finishedResponses ∧
        ((h.getOperation echo).1.dataToSend ≠ [] → (h.getOperation echo).1.close = false) ∧
        ((h.getOperation echo).1.dataToSend = [] →
          Sends echo finals (reported ops) [] ∧ (h.getOperation echo).1.close = closed) ∧
        (([] : Bytes) = [] → closed = false → rest = []) := by
  refine pipelining echo () 32768 [lengthMessage, chunkedMessage] ?_ twoRequests [] ?_
  · intro m hm
    simp only [List.mem_cons, List.not_mem_nil, or_false] at hm
    rcases hm with rfl | rfl <;> decide
  · decide

end Afl.Net.Http
