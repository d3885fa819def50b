import Afl.Net.Resp.Client

/-!
# Which reply a call returns

`readResponse` is `feed` on the bytes the client has not consumed yet, so a result belongs to the command just sent
exactly if these bytes are the answer to it. On an open connection this is an invariant (`Ready`): one complete reply
was read for each command and nothing is left. It is lost when a connection breaks with something left on it.
-/

namespace Afl.Net.Resp

open Feed Io.Resp Exec

/-- The bytes received or about to be received that the parser has not seen yet. -/
def Client.unread (c : Client) : Bytes := c.input ++ c.pending.flatten

/-! ### Reading -/

/-- A client after reading: the parser is in the given state and `rest` is unread. -/
structure Consumed (closed : Bool) (parser : State) (rest : Bytes) (c : Client) : Prop where
  closed_eq : c.closed = closed
  parser_eq : c.parser = parser
  unread_eq : c.unread = rest
  pending : [] ∉ c.pending

/-- How reading ends if feeding the unread bytes gives `o`. -/
def ReadEnd (socketName : Bytes) (closed : Bool) (o : Outcome) (r : Except Stop Value) (c : Client) : Prop :=
  match o with
  | .done v rest => r = result socketName v ∧ Consumed closed .root rest c
  | .fail parser rest => r = .error (.thrown syntaxError) ∧ Consumed closed parser rest c
  | .more parser _ =>
    r = .error (if closed then .thrown (.fileTooShort socketName) else .blocked) ∧ Consumed closed parser [] c

def ReadPost (w : World) (r : Except Stop Value) (w' : World) : Prop :=
  w'.events = w.events ∧
    ReadEnd w.client.socketName w.client.closed (run (feed false) w.client.parser w.client.unread) r w'.client

/-- The turns the loop needs. -/
def Client.turns (c : Client) : Nat := c.pending.length + if c.input = [] then 1 else 2

variable {w : World}

theorem wp_parseInput {fuel : Nat} (hpending : [] ∉ w.client.pending) (hfuel : w.client.pending.length + 1 ≤ fuel)
    (ih : ∀ w : World, [] ∉ w.client.pending → w.client.turns ≤ fuel → wp (readLoop fuel) w (ReadPost w)) :
    wp (parseInput (readLoop fuel)) w (ReadPost w) := by
  rw [parseInput, wp_bind, wp_get, seqPost_ok, handleData_eq_run]
  have happend := @run_append _ _ _ (feed false) w.client.parser w.client.input w.client.pending.flatten
  rcases hr : run (feed false) w.client.parser w.client.input with ⟨parser, rest⟩ | ⟨v, rest⟩ | ⟨parser, rest⟩ <;>
    rw [hr] at happend
  · obtain rfl := run_more_rest hr
    simp only [wp_bind, wp_modify, seqPost_ok]
    refine wp_mono (ih (w.setParser parser []) hpending ?_) fun r w' hpost => ?_
    · simpa [World.setParser, Client.turns] using hfuel
    · unfold ReadPost
      rw [Client.unread, happend]
      exact hpost
  · simp only [wp_act, ReadPost]
    rw [Client.unread, happend]
    exact ⟨rfl, rfl, rfl, rfl, rfl, hpending⟩
  · simp only [wp_act, ReadPost]
    rw [Client.unread, happend]
    exact ⟨rfl, rfl, rfl, rfl, rfl, hpending⟩

theorem wp_readLoop (fuel : Nat) (w : World) (hpending : [] ∉ w.client.pending) (hfuel : w.client.turns ≤ fuel) :
    wp (readLoop fuel) w (ReadPost w) := by
  induction fuel generalizing w with
  | zero =>
    unfold Client.turns at hfuel
    split at hfuel <;> omega
  | succ fuel ih =>
    simp only [readLoop, fillInput, wp_bind, wp_get, seqPost_ok]
    by_cases hinput : w.client.input = []
    · rw [Client.turns, if_pos hinput] at hfuel
      simp only [hinput, if_true, wp_bind, receive, wp_act]
      rcases hpack : w.client.pending with _ | ⟨packet, pending⟩
      · -- nothing left to receive
        have hunread : w.client.unread = [] := by simp [Client.unread, hinput, hpack]
        have hend : Consumed w.client.closed w.client.parser [] w.client := ⟨rfl, rfl, hunread, hpending⟩
        cases hclosed : w.client.closed <;> rw [hclosed] at hend
        · simp [ReadPost, ReadEnd, hunread, hclosed, hend]
        · simp [ReadPost, ReadEnd, hunread, hclosed, hend]
      · rw [hpack, List.mem_cons, not_or] at hpending
        rw [hpack, List.length_cons] at hfuel
        simp only [seqPost_ok, if_neg (Ne.symm hpending.1), wp_modify]
        have hleft : pending.length + 1 ≤ fuel := by omega
        refine wp_mono (wp_parseInput hpending.2 hleft ih) fun r w' hpost => ?_
        have hunread : w.client.unread = packet ++ pending.flatten := by simp [Client.unread, hinput, hpack]
        unfold ReadPost
        rw [hunread]
        exact hpost
    · rw [Client.turns, if_neg hinput] at hfuel
      simp only [hinput, if_false, wp_pure, seqPost_ok]
      exact wp_parseInput hpending (by omega) ih

theorem wp_readResponse (w : World) (hpending : [] ∉ w.client.pending) : wp readResponse w (ReadPost w) := by
  rw [readResponse, wp_bind, wp_get, seqPost_ok]
  refine wp_readLoop _ w hpending ?_
  unfold Client.turns
  split <;> omega

/-! ### Attribution -/

/-- `v` is the value of the complete reply that the server sent for this command on the connection on which the
command was last sent. -/
def AnsweredWith (command : Segment) (events : List Event) (v : Value) : Prop :=
  ∃ before answer rest, events.getLast? = some (.sent (Writer.visitSegment command) before answer) ∧
    before.closed = false ∧ run (feed false) .root answer.packets.flatten = .done v rest

/-- A value returned and a remote error thrown are the server's answer to this command. -/
def Attributed (command : Segment) (events : List Event) : Except Stop Value → Prop
  | .ok v => AnsweredWith command events v
  | .error (.thrown (.remoteError _ err)) => ∃ source, AnsweredWith command events (.error source err)
  | .error _ => True

/-- A new connection starts with nothing left of the old one. When a command is sent on a connection that the
server has closed already, what is left of it completes no reply. -/
def Event.Untainted : Event → Prop
  | .connected before => before.parser = .root ∧ before.input = []
  | .sent _ before _ =>
    before.closed = true → ∀ v rest, run (feed false) before.parser before.unread ≠ .done v rest

/-- On a connection that the server keeps open, everything received has been consumed. -/
structure Ready (c : Client) : Prop where
  parser : c.closed = false → c.parser = .root
  unread : c.closed = false → c.unread = []

/-- The client has sent a command: the answer is all there is to read, or there is none to come. -/
inductive Awaiting (command : Segment) (events : List Event) (c : Client) : Prop
  | answer (before : Client) (answer : Answer)
      (hlast : events.getLast? = some (.sent (Writer.visitSegment command) before answer))
      (hopen : before.closed = false) (hparser : c.parser = .root)
      (hunread : c.unread = answer.packets.flatten) (hclosed : c.closed = answer.close)
  | lost (hclosed : c.closed = true)
      (hunread : ∀ v rest, run (feed false) c.parser c.unread ≠ .done v rest)

/-- The record of the call is without taint. -/
def Clean (w : World) : Prop := ∀ e ∈ w.events, e.Untainted

variable {command : Segment}

variable {events : List Event}

theorem attributed_result {v : Value}
    (h : AnsweredWith command events v) (socketName : Bytes) : Attributed command events (result socketName v) := by
  cases v with
  | error source err => exact ⟨source, h⟩
  | _ => exact h

/-- The client is ready, provided the record is without taint. -/
def ReadyIn (w : World) : Prop := [] ∉ w.client.pending ∧ (Clean w → Ready w.client)

/-- `connect` and `reconnect` leave a ready client, and throw nothing but what the network stack throws. -/
def ConnectPost (w : World) (r : Except Stop Unit) (w' : World) : Prop :=
  (Clean w' → Clean w) ∧ ReadyIn w' ∧ ∀ e, r = .error e → ∃ message, e = .thrown (.runtimeError message)

theorem wp_connect (hw : ReadyIn w) : wp connect w (ConnectPost w) := by
  rw [connect, wp_act]
  rcases w.connects with _ | ⟨_ | _, connects⟩
  · exact ⟨id, hw, fun e he => ⟨_, (Except.error.inj he).symm⟩⟩
  · exact ⟨id, hw, fun e he => ⟨_, (Except.error.inj he).symm⟩⟩
  · refine ⟨fun hclean e he => hclean e (List.mem_append_left _ he), ⟨by simp, fun hclean => ?_⟩, fun e he => by cases he⟩
    obtain ⟨hparser, hinput⟩ := hclean (.connected w.client) (by simp)
    exact ⟨fun _ => hparser, fun _ => by simp [Client.unread, hinput]⟩

theorem wp_reconnectLoop (i : Nat) (hw : ReadyIn w) : wp (reconnectLoop (i + 1)) w (ConnectPost w) := by
  induction i generalizing w with
  | zero =>
    rw [reconnectLoop, wp_catching]
    refine wp_mono (wp_connect hw) fun r w' hpost => ?_
    rcases r with e | _
    · obtain ⟨message, rfl⟩ := hpost.2.2 e rfl
      exact hpost
    · exact hpost
  | succ i ih =>
    rw [reconnectLoop, wp_catching]
    refine wp_mono (wp_connect hw) fun r w' hpost => ?_
    rcases r with e | _
    · obtain ⟨message, rfl⟩ := hpost.2.2 e rfl
      show wp (if i + 1 = 0 then _ else reconnectLoop (i + 1)) w' (ConnectPost w)
      rw [if_neg (Nat.succ_ne_zero i)]
      exact wp_mono (ih hpost.2.1) fun r w'' hpost' => ⟨fun h => hpost.1 (hpost'.1 h), hpost'.2⟩
    · exact hpost

/-- `sendCommand` makes a ready client await the answer, or throws and leaves it ready. -/
def SendPost (command : Segment) (w : World) (r : Except Stop Unit) (w' : World) : Prop :=
  (Clean w' → Clean w) ∧
    match r with
    | .ok _ => [] ∉ w'.client.pending ∧ (Clean w' → Awaiting command w'.events w'.client)
    | .error e => (∃ message, e = .thrown (.runtimeError message)) ∧ ReadyIn w'

variable {c : Client}

theorem awaiting_deliver {answer : Answer} (hc : Ready c)
    (hlast : events.getLast? = some (.sent (Writer.visitSegment command) c answer))
    (hsent : (Event.sent (Writer.visitSegment command) c answer).Untainted) :
    Awaiting command events (c.deliver answer) := by
  rcases hclosed : c.closed with _ | _
  · have hunread := hc.unread hclosed
    rw [Client.unread] at hunread
    refine .answer c answer hlast hclosed ?_ ?_ ?_
    · simpa [Client.deliver, hclosed] using hc.parser hclosed
    · simp only [Client.deliver, hclosed, Client.unread, Bool.false_eq_true, if_false]
      rw [List.flatten_append, ← List.append_assoc, hunread, List.nil_append]
    · simp [Client.deliver, hclosed]
  · have hsame : c.deliver answer = c := by simp [Client.deliver, hclosed]
    rw [hsame]
    exact .lost hclosed (hsent hclosed)

theorem wp_sendCommand (command : Segment) (hw : ReadyIn w) :
    wp (sendCommand command) w (SendPost command w) := by
  rw [sendCommand, wp_act]
  rcases w.sends with _ | ⟨_ | answer, sends⟩
  · exact ⟨id, ⟨_, rfl⟩, hw⟩
  · exact ⟨id, ⟨_, rfl⟩, hw⟩
  · have hmem : ∀ e ∈ w.events, e ∈ w.events ++ [Event.sent (Writer.visitSegment command) w.client answer] :=
      fun e he => List.mem_append_left _ he
    refine ⟨fun hclean e he => hclean e (hmem e he), ?_, fun hclean => ?_⟩
    · show [] ∉ (w.client.deliver answer).pending
      rw [Client.deliver]
      split
      · exact hw.1
      · simpa [hw.1] using answer.hpackets
    · exact awaiting_deliver (hw.2 fun e he => hclean e (hmem e he)) (by simp) (hclean _ (by simp))

theorem ready_of_closed {parser : State} {rest : Bytes} (h : Consumed true parser rest c) :
    Ready c := by
  have hclosed : c.closed ≠ false := by simp [h.closed_eq]
  exact ⟨fun hopen => absurd hopen hclosed, fun hopen => absurd hopen hclosed⟩

variable {r : Except Stop Value}

theorem readEnd_answer {before c : Client} {answer : Answer} {socketName : Bytes}
    (hlast : events.getLast? = some (.sent (Writer.visitSegment command) before answer))
    (hopen : before.closed = false)
    (hend : ReadEnd socketName answer.close (run (feed false) .root answer.packets.flatten) r c) :
    Ready c ∧ Attributed command events r := by
  -- what is not exactly one reply was followed by a close
  have hclose : (∀ v, run (feed false) .root answer.packets.flatten ≠ .done v []) → answer.close = true := by
    intro hne
    refine Bool.eq_true_of_not_eq_false fun hfalse => ?_
    obtain ⟨v, hv⟩ := answer.hreply hfalse
    exact hne v hv
  rcases hr : run (feed false) .root answer.packets.flatten with ⟨s, rest⟩ | ⟨v, rest⟩ | ⟨s, rest⟩ <;>
    rw [hr] at hend hclose
  · obtain ⟨rfl, hcons⟩ := hend
    rw [hclose (by simp)] at hcons ⊢
    exact ⟨ready_of_closed hcons, trivial⟩
  · obtain ⟨rfl, hcons⟩ := hend
    refine ⟨?_, attributed_result ⟨before, answer, rest, hlast, hopen, hr⟩ socketName⟩
    rcases eq_or_ne rest [] with rfl | hrest
    · exact ⟨fun _ => hcons.parser_eq, fun _ => hcons.unread_eq⟩
    · rw [hclose (by simpa using hrest)] at hcons
      exact ready_of_closed hcons
  · obtain ⟨rfl, hcons⟩ := hend
    rw [hclose (by simp)] at hcons
    exact ⟨ready_of_closed hcons, trivial⟩

theorem readEnd_attributed {c c' : Client} (hc : Awaiting command events c)
    (hend : ReadEnd c.socketName c.closed (run (feed false) c.parser c.unread) r c') :
    Ready c' ∧ Attributed command events r := by
  cases hc with
  | answer before answer hlast hopen hparser hunread hclosed =>
    rw [hparser, hclosed, hunread] at hend
    exact readEnd_answer hlast hopen hend
  | lost hclosed hunread =>
    rw [hclosed] at hend
    rcases hr : run (feed false) c.parser c.unread with ⟨s, rest⟩ | ⟨v, rest⟩ | ⟨s, rest⟩ <;> rw [hr] at hend
    · obtain ⟨rfl, hcons⟩ := hend
      exact ⟨ready_of_closed hcons, trivial⟩
    · exact absurd hr (hunread v rest)
    · obtain ⟨rfl, hcons⟩ := hend
      exact ⟨ready_of_closed hcons, trivial⟩

theorem ReadEnd.nil_notMem {socketName : Bytes} {closed : Bool} {o : Outcome}
    (h : ReadEnd socketName closed o r c) : [] ∉ c.pending := by
  cases o <;> exact h.2.pending

/-! ### Calls -/

/-- What a computation of a call promises: it leaves a ready client, and if the record is without taint, its
result is attributed. -/
def CallPost (command : Segment) (w : World) (r : Except Stop Value) (w' : World) : Prop :=
  (Clean w' → Clean w) ∧ ReadyIn w' ∧ (Clean w' → Attributed command w'.events r)

theorem CallPost.of_clean {w w' w'' : World} (hw : Clean w' → Clean w)
    (h : CallPost command w' r w'') : CallPost command w r w'' :=
  ⟨fun hclean => hw (h.1 hclean), h.2⟩

theorem callPost_networkError {w w' : World} {message : Bytes} (hclean : Clean w' → Clean w)
    (hw : ReadyIn w') : CallPost command w (.error (.thrown (.runtimeError message))) w' :=
  ⟨hclean, hw, fun _ => trivial⟩

theorem wp_readAnswer (hpending : [] ∉ w.client.pending)
    (hw : Clean w → Awaiting command w.events w.client) : wp readResponse w (CallPost command w) := by
  refine wp_mono (wp_readResponse w hpending) fun r w' hpost => ?_
  obtain ⟨hevents, hend⟩ := hpost
  have hclean : Clean w' → Clean w := by
    unfold Clean
    rw [hevents]
    exact id
  refine ⟨hclean, ⟨hend.nil_notMem, fun h => (readEnd_attributed (hw (hclean h)) hend).1⟩, fun h => ?_⟩
  rw [hevents]
  exact (readEnd_attributed (hw (hclean h)) hend).2

theorem wp_attempt (command : Segment) (hw : ReadyIn w) :
    wp (do sendCommand command; readResponse) w (CallPost command w) := by
  rw [wp_bind]
  refine wp_mono (wp_sendCommand command hw) fun r w' hpost => ?_
  rcases r with e | _
  · obtain ⟨hclean, ⟨message, rfl⟩, hready⟩ := hpost
    exact callPost_networkError hclean hready
  · obtain ⟨hclean, hpending, hawait⟩ := hpost
    rw [seqPost_ok]
    exact wp_mono (wp_readAnswer hpending hawait) fun r w'' h => h.of_clean hclean

/-- Trying again on a new connection: either the old exception, or one of the network, or a new attempt from a
ready client. -/
theorem wp_retry {α : Type} {e : Stop} {again : Exec World Stop α} {Q : Except Stop α → World → Prop}
    (hw : ReadyIn w) (hold : Q (.error e) w)
    (hfail : ∀ message w', (Clean w' → Clean w) → ReadyIn w' → Q (.error (.thrown (.runtimeError message))) w')
    (hagain : ∀ w', (Clean w' → Clean w) → ReadyIn w' → wp again w' Q) : wp (retry e again) w Q := by
  rw [retry, wp_bind, wp_get, seqPost_ok, wp_ite]
  split
  · exact hold
  · rw [wp_bind]
    refine wp_mono (wp_reconnectLoop 14 hw) fun r w' hpost => ?_
    rcases r with e | _
    · obtain ⟨message, rfl⟩ := hpost.2.2 e rfl
      exact hfail message w' hpost.1 hpost.2.1
    · exact hagain w' hpost.1 hpost.2.1

theorem wp_sendOrRetry (command : Segment) (hw : ReadyIn w) :
    wp (catching (sendCommand command) fun e =>
      match e with
      | .thrown _ => retry e (sendCommand command)
      | _ => throw e) w (SendPost command w) := by
  rw [wp_catching]
  refine wp_mono (wp_sendCommand command hw) fun r w' hpost => ?_
  rcases r with e | _
  · obtain ⟨hclean, ⟨message, rfl⟩, hready⟩ := hpost
    refine wp_retry (Q := SendPost command w) hready ⟨hclean, ⟨message, rfl⟩, hready⟩ ?_ ?_
    · exact fun message w'' hclean' hready' => ⟨fun h => hclean (hclean' h), ⟨message, rfl⟩, hready'⟩
    · intro w'' hclean' hready'
      exact wp_mono (wp_sendCommand command hready') fun r w₃ h => ⟨fun h3 => hclean (hclean' (h.1 h3)), h.2⟩
  · exact hpost

theorem wp_readOrRetry (command : Segment) (hpending : [] ∉ w.client.pending)
    (hw : Clean w → Awaiting command w.events w.client) :
    wp (catching readResponse fun e =>
      match e with
      | .thrown (.remoteError _ _) => throw e
      | .thrown _ => retry e do
          sendCommand command
          readResponse
      | _ => throw e) w (CallPost command w) := by
  rw [wp_catching]
  refine wp_mono (wp_readAnswer hpending hw) fun r w' hpost => ?_
  have hretry : ∀ e, CallPost command w (.error e) w' →
      wp (retry e do sendCommand command; readResponse) w' (CallPost command w) := by
    intro e hpost
    refine wp_retry hpost.2.1 hpost ?_ ?_
    · exact fun message w'' hclean hready => callPost_networkError (fun h => hpost.1 (hclean h)) hready
    · intro w'' hclean hready
      exact wp_mono (wp_attempt command hready) fun r w₃ h => h.of_clean fun h2 => hpost.1 (hclean h2)
  rcases r with (e | _ | _) | v
  · cases e with
    | remoteError source err => exact hpost
    | _ => exact hretry _ hpost
  · exact hpost
  · exact hpost
  · exact hpost

theorem ready_setMode (h : Ready c) (mode : Mode) : Ready { c with mode := mode } :=
  ⟨h.parser, h.unread⟩

theorem afterCall_eq (c : Client) : c.afterCall = { c with mode := c.afterCall.mode } := by
  unfold Client.afterCall
  split <;> rfl

theorem wp_call (command : Segment) (hw : ReadyIn w) :
    wp (call command) w (CallPost command w) := by
  rw [call, wp_bind]
  refine wp_mono (wp_sendOrRetry command hw) fun r w' hpost => ?_
  rcases r with e | _
  · obtain ⟨hclean, ⟨message, rfl⟩, hready⟩ := hpost
    exact callPost_networkError hclean hready
  · obtain ⟨hclean, hpending, hawait⟩ := hpost
    rw [seqPost_ok, wp_bind]
    refine wp_mono (wp_readOrRetry command hpending hawait) fun r w'' h => ?_
    obtain ⟨hcleanEnd, ⟨hpendingEnd, hready⟩, hattr⟩ := h.of_clean hclean
    rcases r with e | v
    · exact ⟨hcleanEnd, ⟨hpendingEnd, hready⟩, hattr⟩
    · simp only [seqPost_ok, wp_bind, wp_modify, wp_pure]
      rw [afterCall_eq]
      exact ⟨hcleanEnd, ⟨hpendingEnd, fun h => ready_setMode (hready h) _⟩, hattr⟩

theorem calls_attributed_of_ready (hpending : [] ∉ c.pending) (hc : Ready c) (actions : List Action)
    (hclean : ∀ r ∈ calls c actions, ∀ e ∈ r.events, e.Untainted) :
    ∀ r ∈ calls c actions, Attributed r.command r.events r.outcome := by
  induction actions generalizing c with
  | nil => simp [calls]
  | cons action actions ih =>
    cases action with
    | setReconnectMode mode => exact ih hpending (ready_setMode hc mode) hclean
    | call command connects sends =>
      have hpost := wp_call command (w := ⟨c, connects, sends, []⟩) ⟨hpending, fun _ => hc⟩
      unfold wp at hpost
      rcases hexec : exec (call command) ⟨c, connects, sends, []⟩ with ⟨outcome, w⟩
      rw [hexec] at hpost
      obtain ⟨-, ⟨hpendingEnd, hready⟩, hattr⟩ := hpost
      rw [calls, hexec, List.forall_mem_cons] at hclean ⊢
      refine ⟨hattr hclean.1, ?_⟩
      by_cases hreturns : returns outcome
      · simp only [hreturns, if_true] at hclean ⊢
        exact ih hpendingEnd (hready hclean.1) hclean.2
      · simp [hreturns]

/-- **Attribution.** In every run of calls against every server, in every reconnect mode: if each new connection
starts with nothing left of the old one, and a command sent on a connection closed already meets no complete
reply there, then every value returned and every remote error thrown is the one of the complete reply to that
command on the connection on which it was last sent. -/
theorem calls_attributed (socketName : Bytes) (actions : List Action)
    (hclean : ∀ r ∈ calls (.create socketName) actions, ∀ e ∈ r.events, e.Untainted) :
    ∀ r ∈ calls (.create socketName) actions, Attributed r.command r.events r.outcome :=
  calls_attributed_of_ready (by simp [Client.create]) ⟨fun _ => rfl, fun _ => rfl⟩ actions hclean

def okAnswer : Answer := ⟨[lit "+O", lit "K\r\n"], false, by decide, fun _ => ⟨.string (lit "OK"), rfl⟩⟩

def noAnswer : Answer := ⟨[], true, by decide, by simp⟩

def cutAnswer : Answer := ⟨[lit "+OL"], true, by decide, by simp⟩

/-- One call, with one reconnect, that meets a closed connection first and a complete reply then. -/
def callAfter (first : Answer) : List Action :=
  [.call [.string (lit "PING")] [.connected] [.accepted first, .accepted okAnswer]]

theorem call_after_close_attributed :
    ∃ r, calls (.create (lit "tcp")) (callAfter noAnswer) = [r] ∧ Attributed r.command r.events r.outcome := by
  refine ⟨_, rfl, calls_attributed (lit "tcp") (callAfter noAnswer) ?_ _ (List.mem_singleton.mpr rfl)⟩
  intro r hr e he
  obtain rfl := List.mem_singleton.mp hr
  rcases List.mem_cons.mp he with rfl | he
  · intro hclosed
    cases hclosed
  · rcases List.mem_cons.mp he with rfl | he
    · exact ⟨rfl, rfl⟩
    · obtain rfl := List.mem_singleton.mp he
      intro hclosed
      cases hclosed

/-- A reply cut short and the complete reply on the next connection are read as one. -/
theorem cut_reply_joins_next :
    ∃ r ∈ calls (.create (lit "tcp")) (callAfter cutAnswer),
      r.outcome = .ok (.string (lit "OL+OK")) ∧ ¬Attributed r.command r.events r.outcome := by
  refine ⟨_, List.mem_singleton.mpr rfl, rfl, ?_⟩
  rintro ⟨before, answer, rest, hlast, -, hrun⟩
  cases hlast
  cases hrun

end Afl.Net.Resp
