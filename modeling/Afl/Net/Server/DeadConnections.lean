import Afl.Net.Server.Server

/-!
# Dead connections

A connection that is handled without exceptions is afterwards sending or receiving, or gone. An exception between two
steps leaves it in the list with no operation outstanding, and no later event concerns it. An exception is harmless
only when it comes from the first callbacks of a timeout, before the operation is cancelled.
-/

set_option linter.unusedSectionVars false

namespace Afl.Net.Server

open Afl.Async Run

variable {ι H : Type} [DecidableEq ι]

/-- The connection is sending or receiving, with exactly that operation outstanding. -/
def Connection.Live (c : Connection ι H) : Prop :=
  (c.state = .sending ∧ c.sendPending = true ∧ c.receivePending = false) ∨
    (c.state = .receiving ∧ c.receivePending = true ∧ c.sendPending = false)

/-- The connection is live, or it closes and this was signalled. -/
def Result.Settled (r : Result ι H) : Prop :=
  r.connection.Live ∨ (r.connection.state = .closing ∧ r.closes = true)

/-- Closing is signalled. -/
def Result.Signals (r : Result ι H) : Prop := r.connection.state = .closing → r.closes = true

/-- Nothing is outstanding. -/
def Connection.Quiet (c : Connection ι H) : Prop := c.sendPending = false ∧ c.receivePending = false

/-! ### One connection -/

variable {c : Connection ι H} {next : Connection ι H → Result ι H}

section Handling

variable (ph : ProtocolHandler H) (out : Outside)

/-- No call throws when the handler is asked for its next operation and this is started. -/
def StartSucceeds (h : H) : Prop :=
  let r := ph.getOperation .preset h
  r.2.2 = true ∧
    if r.2.1.dataToSend = [] ∧ r.2.1.close = true then (ph.handleConnectionClose r.1).2 = true else out.refuses = false

/-- No call throws after a send. -/
def SentSucceeds (c : Connection ι H) : Prop :=
  if c.sendOperation.getUnsentBytes = [] then
    let r := ph.advanceTime (out.tick - c.startTime) c.handler
    r.2 = true ∧ StartSucceeds ph out r.1
  else if c.sendOperation.numSentBytes = 0 then (ph.handleConnectionClose c.handler).2 = true
  else out.refuses = false

/-- No call throws after a receive. -/
def ReceivedSucceeds (c : Connection ι H) : Prop :=
  let r := ph.advanceTime (out.tick - c.startTime) c.handler
  r.2 = true ∧
    if c.receiveOperation.numReceivedBytes = 0 then (ph.handleConnectionClose r.1).2 = true
    else
      let r' := ph.handleData c.receiveOperation.getReceivedBytes r.1
      r'.2 = true ∧ StartSucceeds ph out r'.1

/-- No call throws once the operation that has timed out is cancelled. -/
def TimeoutSucceeds (now : UInt32) (c : Connection ι H) : Prop :=
  c.timedOut now = true →
    let r := ph.advanceTime (now - c.startTime) c.handler
    let r' := if c.state = .sending then ph.handleSendTimeout c.phOperation.dataToSend r.1 else (r.1, true)
    r.2 = true → r'.2 = true → StartSucceeds ph out r'.1

variable {ph out}

theorem Connection.Live.ne_closing (hlive : c.Live) : c.state ≠ .closing := by
  rcases hlive with ⟨hstate, -⟩ | ⟨hstate, -⟩
  · rw [hstate]
    decide
  · rw [hstate]
    decide

theorem settled_closing (c : Connection ι H) : c.closing.Settled := .inr ⟨rfl, rfl⟩

theorem not_settled_of_quiet {r : Result ι H} (hquiet : r.connection.Quiet) (hstate : r.connection.state ≠ .closing) :
    ¬r.Settled := by
  rintro ((⟨-, hpending, -⟩ | ⟨-, hpending, -⟩) | ⟨hclosing, -⟩)
  · rw [hquiet.1] at hpending
    cases hpending
  · rw [hquiet.2] at hpending
    cases hpending
  · exact hstate hclosing

theorem settled_callback (hquiet : c.Quiet) (hstate : c.state ≠ .closing) (f : H → H × Bool) {P : Prop}
    (hnext : (next { c with handler := (f c.handler).1 }).Settled ↔ P) :
    (c.callback f next).Settled ↔ (f c.handler).2 = true ∧ P := by
  rw [Connection.callback]
  split_ifs with hf
  · rw [hnext]
    exact (and_iff_right hf).symm
  · exact iff_of_false (not_settled_of_quiet hquiet hstate) fun h => hf h.1

theorem settled_callback_closing (hquiet : c.Quiet) (hstate : c.state ≠ .closing)
    (f : H → H × Bool) : (c.callback f Connection.closing).Settled ↔ (f c.handler).2 = true := by
  have hiff := settled_callback hquiet hstate f (iff_of_true (settled_closing _) trivial)
  rwa [and_true] at hiff

theorem settled_unless_refused (hquiet : c.Quiet) (hstate : c.state ≠ .closing) (refuses : Bool)
    {r : Result ι H} (hr : r.Settled) : (if refuses then c.thrown else r).Settled ↔ refuses = false := by
  rcases refuses with _ | _
  · exact iff_of_true hr rfl
  · exact iff_of_false (not_settled_of_quiet hquiet hstate) fun h => by cases h

theorem settled_sendAsync (hquiet : c.Quiet) (hstate : c.state ≠ .closing)
    (hnext : (next { c with sendOperation := c.sendOperation.setController (), sendPending := true }).Settled) :
    (Connection.sendAsync out.refuses c next).Settled ↔ out.refuses = false :=
  settled_unless_refused hquiet hstate out.refuses hnext

theorem settled_receiveAsync (hquiet : c.Quiet) (hstate : c.state ≠ .closing)
    (hnext : (next { c with receiveOperation := c.receiveOperation.setController (), receivePending := true }).Settled) :
    (Connection.receiveAsync out.refuses c next).Settled ↔ out.refuses = false :=
  settled_unless_refused hquiet hstate out.refuses hnext

theorem settled_startConnection (hquiet : c.Quiet) (hidle : c.state = .idle) :
    (startConnection ph out c).Settled ↔ StartSucceeds ph out c.handler := by
  have hstate : c.state ≠ .closing := by
    rw [hidle]
    decide
  rw [startConnection, StartSucceeds]
  obtain ⟨h, op, returns⟩ := ph.getOperation .preset c.handler
  simp only
  by_cases hreturns : returns = false
  · rw [if_pos hreturns]
    refine iff_of_false (not_settled_of_quiet hquiet hstate) ?_
    rintro ⟨htrue, -⟩
    rw [hreturns] at htrue
    cases htrue
  · rw [if_neg hreturns, and_iff_right (Bool.eq_true_of_not_eq_false hreturns)]
    by_cases hdata : op.dataToSend = []
    · rw [if_neg (not_not.mpr hdata)]
      by_cases hclose : op.close = true
      · rw [if_pos hclose, if_pos ⟨hdata, hclose⟩]
        apply settled_callback_closing
        · exact hquiet
        · exact hstate
      · rw [if_neg hclose, if_neg fun h => hclose h.2]
        apply settled_receiveAsync
        · exact hquiet
        · exact hstate
        · exact .inl (.inr ⟨rfl, rfl, hquiet.1⟩)
    · rw [if_pos hdata, if_neg fun h => hdata h.1]
      apply settled_sendAsync
      · exact hquiet
      · exact hstate
      · exact .inl (.inl ⟨rfl, rfl, hquiet.2⟩)

theorem settled_handleSent (hquiet : c.Quiet) (hsending : c.state = .sending) :
    (handleSent ph out c).Settled ↔ SentSucceeds ph out c := by
  have hstate : c.state ≠ .closing := by
    rw [hsending]
    decide
  rw [handleSent, SentSucceeds]
  split_ifs with hunsent hzero
  · exact settled_callback hquiet hstate _ (settled_startConnection hquiet rfl)
  · exact settled_callback_closing hquiet hstate _
  · apply settled_sendAsync
    · exact hquiet
    · exact hstate
    · exact .inl (.inl ⟨rfl, rfl, hquiet.2⟩)

theorem settled_handleReceived (hquiet : c.Quiet) (hreceiving : c.state = .receiving) :
    (handleReceived ph out c).Settled ↔ ReceivedSucceeds ph out c := by
  have hstate : c.state ≠ .closing := by
    rw [hreceiving]
    decide
  rw [handleReceived, ReceivedSucceeds]
  refine settled_callback hquiet hstate _ ?_
  simp only
  split_ifs with hzero
  · apply settled_callback_closing
    · exact hquiet
    · exact hstate
  · apply settled_callback
    · exact hquiet
    · exact hstate
    · exact settled_startConnection hquiet rfl

theorem settled_callback_live (hlive : c.Live) (f : H → H × Bool) {P : Prop}
    (hnext : (next { c with handler := (f c.handler).1 }).Settled ↔ P) :
    (c.callback f next).Settled ↔ ((f c.handler).2 = true → P) := by
  rw [Connection.callback]
  split_ifs with hf
  · rw [hnext]
    exact ⟨fun h _ => h, fun h => h hf⟩
  · exact iff_of_true (.inl hlive) fun h => absurd h hf

theorem settled_handleConnectionTime (hlive : c.Live) (now : UInt32) :
    (handleConnectionTime ph out now c).Settled ↔ TimeoutSucceeds ph out now c := by
  rw [handleConnectionTime, TimeoutSucceeds]
  by_cases htime : c.timedOut now = true
  · rw [forall_prop_of_true htime]
    rcases hlive with ⟨hsending, hsend, hreceive⟩ | ⟨hreceiving, hreceive, hsend⟩
    · rw [hsending]
      simp only [htime, if_true]
      refine settled_callback_live (.inl ⟨hsending, hsend, hreceive⟩) _ ?_
      apply settled_callback_live
      · exact .inl ⟨hsending, hsend, hreceive⟩
      · exact settled_startConnection ⟨rfl, hreceive⟩ rfl
    · rw [hreceiving]
      simp only [htime, if_true, reduceCtorEq, if_false, forall_const]
      refine settled_callback_live (.inr ⟨hreceiving, hreceive, hsend⟩) _ ?_
      exact settled_startConnection ⟨hsend, rfl⟩ rfl
  · refine iff_of_true ?_ fun h => absurd h htime
    rcases hlive with ⟨hsending, hsend, hreceive⟩ | ⟨hreceiving, hreceive, hsend⟩
    · rw [hsending]
      simp only [htime]
      exact .inl (.inl ⟨hsending, hsend, hreceive⟩)
    · rw [hreceiving]
      simp only [htime]
      exact .inl (.inr ⟨hreceiving, hreceive, hsend⟩)

/-! ### Closing is signalled -/

theorem signals_of_ne {r : Result ι H} (h : r.connection.state ≠ .closing) : r.Signals := fun hclosing => absurd hclosing h

theorem signals_closing (c : Connection ι H) : c.closing.Signals := fun _ => rfl

theorem signals_callback (hstate : c.state ≠ .closing) (f : H → H × Bool)
    (hnext : (next { c with handler := (f c.handler).1 }).Signals) :
    (c.callback f next).Signals := by
  rw [Connection.callback]
  split_ifs
  · exact hnext
  · exact signals_of_ne hstate

theorem signals_startConnection (hidle : c.state = .idle) : (startConnection ph out c).Signals := by
  have hstate : c.state ≠ .closing := by
    rw [hidle]
    decide
  rw [startConnection]
  obtain ⟨h, op, returns⟩ := ph.getOperation .preset c.handler
  simp only [Connection.sendAsync, Connection.receiveAsync]
  split_ifs
  · exact signals_of_ne hstate
  · exact signals_of_ne hstate
  · exact signals_of_ne fun h => by cases h
  · apply signals_callback
    · exact hstate
    · exact signals_closing _
  · exact signals_of_ne hstate
  · exact signals_of_ne fun h => by cases h

theorem signals_handleSent (hsending : c.state = .sending) : (handleSent ph out c).Signals := by
  have hstate : c.state ≠ .closing := by
    rw [hsending]
    decide
  rw [handleSent]
  simp only [Connection.sendAsync]
  split_ifs
  · exact signals_callback hstate _ (signals_startConnection rfl)
  · exact signals_callback hstate _ (signals_closing _)
  · exact signals_of_ne hstate
  · exact signals_of_ne fun h => by cases h

theorem signals_handleReceived (hreceiving : c.state = .receiving) :
    (handleReceived ph out c).Signals := by
  have hstate : c.state ≠ .closing := by
    rw [hreceiving]
    decide
  rw [handleReceived]
  refine signals_callback hstate _ ?_
  simp only
  split_ifs
  · apply signals_callback
    · exact hstate
    · exact signals_closing _
  · apply signals_callback
    · exact hstate
    · exact signals_startConnection rfl

theorem signals_handleConnectionTime (hlive : c.Live) (now : UInt32) :
    (handleConnectionTime ph out now c).Signals := by
  have hstate := hlive.ne_closing
  rw [handleConnectionTime]
  rcases hlive with ⟨hsending, -⟩ | ⟨hreceiving, -⟩
  · rw [hsending]
    simp only
    split_ifs
    · refine signals_callback hstate _ ?_
      apply signals_callback
      · exact hstate
      · exact signals_startConnection rfl
    · exact signals_of_ne hstate
  · rw [hreceiving]
    simp only
    split_ifs
    · exact signals_callback hstate _ (signals_startConnection rfl)
    · exact signals_of_ne hstate

end Handling

/-! ### The list of connections -/

/-- Every element is a live connection. -/
def RunState.NoneDead (s : RunState ι H) : Prop := ∀ e ∈ s.connections, ∃ c, e = some c ∧ c.Live

/-- The state before closing connections are dropped. -/
def RunState.handled (s : RunState ι H) (results : List (Result ι H)) : RunState ι H :=
  { s with connections := results.map fun r => some r.connection, closeSignal := results.any Result.closes }

/-- **Only settled connections remain.** -/
theorem noneDead_processClosing (s : RunState ι H) {results : List (Result ι H)} (hsignals : ∀ r ∈ results, r.Signals) :
    (s.handled results).processClosing.NoneDead ↔ ∀ r ∈ results, r.Settled := by
  have hkept : ∀ r ∈ results, r.connection.state ≠ .closing →
      some r.connection ∈ (s.handled results).processClosing.connections := by
    intro r hr hstate
    rw [RunState.processClosing]
    split_ifs
    · show _ ∈ Compact.compact _ _
      rw [Compact.compact_eq_filter, List.mem_filter]
      exact ⟨List.mem_map_of_mem hr, by simpa [Compact.keeps] using hstate⟩
    · exact List.mem_map_of_mem hr
  constructor
  · intro hnone r hr
    by_cases hstate : r.connection.state = .closing
    · exact .inr ⟨hstate, hsignals r hr hstate⟩
    · obtain ⟨c, hc, hlive⟩ := hnone _ (hkept r hr hstate)
      cases hc
      exact .inl hlive
  · intro hall e he
    rw [RunState.processClosing] at he
    split_ifs at he with hcloses
    · change e ∈ Compact.compact _ (results.map fun r => some r.connection) at he
      rw [Compact.compact_eq_filter, List.mem_filter, List.mem_map] at he
      obtain ⟨⟨r, hr, rfl⟩, hkeeps⟩ := he
      refine ⟨r.connection, rfl, ?_⟩
      rcases hall r hr with hlive | ⟨hclosing, -⟩
      · exact hlive
      · simp [Compact.keeps, hclosing] at hkeeps
    · obtain ⟨r, hr, rfl⟩ := List.mem_map.mp he
      refine ⟨r.connection, rfl, ?_⟩
      rcases hall r hr with hlive | ⟨-, hr'⟩
      · exact hlive
      · exact absurd (List.any_eq_true.mpr ⟨r, hr, hr'⟩) hcloses

/-! ### Connections keep their identity -/

section Identity

variable (ph : ProtocolHandler H) (out : Outside)

theorem id_callback (c : Connection ι H) (f : H → H × Bool)
    (hnext : (next { c with handler := (f c.handler).1 }).connection.id = c.id) :
    (c.callback f next).connection.id = c.id := by
  rw [Connection.callback]
  split_ifs
  · exact hnext
  · rfl

@[simp] theorem id_startConnection (c : Connection ι H) : (startConnection ph out c).connection.id = c.id := by
  rw [startConnection]
  obtain ⟨h, op, returns⟩ := ph.getOperation .preset c.handler
  simp only [Connection.sendAsync, Connection.receiveAsync]
  split_ifs
  · rfl
  · rfl
  · rfl
  · exact id_callback _ _ rfl
  · rfl
  · rfl

@[simp] theorem id_handleSent (c : Connection ι H) : (handleSent ph out c).connection.id = c.id := by
  rw [handleSent]
  simp only [Connection.sendAsync]
  split_ifs
  · exact id_callback _ _ (id_startConnection ph out _)
  · exact id_callback _ _ rfl
  · rfl
  · rfl

@[simp] theorem id_handleReceived (c : Connection ι H) : (handleReceived ph out c).connection.id = c.id := by
  rw [handleReceived]
  refine id_callback _ _ ?_
  simp only
  split_ifs
  · exact id_callback _ _ rfl
  · exact id_callback _ _ (id_startConnection ph out _)

@[simp] theorem id_handleConnectionTime (now : UInt32) (c : Connection ι H) :
    (handleConnectionTime ph out now c).connection.id = c.id := by
  rw [handleConnectionTime]
  rcases c.state with _ | _ | _ | _
  · rfl
  · simp only
    split_ifs
    · exact id_callback _ _ (id_callback _ _ (id_startConnection ph out _))
    · rfl
  · simp only
    split_ifs
    · exact id_callback _ _ (id_startConnection ph out _)
    · rfl
  · rfl

@[simp] theorem id_complete (c : Connection ι H) (event : Event ι H) : (c.complete event).id = c.id := by
  cases event with
  | timeout _ => rfl
  | accept _ _ => rfl
  | sent id n =>
    rw [Connection.complete]
    split_ifs <;> rfl
  | received id bytes =>
    rw [Connection.complete]
    split_ifs <;> rfl

end Identity

/-! ### One iteration -/

/-- A server whose connections are all live. -/
structure RunState.Serving (s : RunState ι H) (cs : List (Connection ι H)) : Prop where
  connections : s.connections = cs.map some
  live : ∀ c ∈ cs, c.Live
  nodup : (cs.map Connection.id).Nodup
  closeSignal : s.closeSignal = false

theorem serving_processClosing (s : RunState ι H) {results : List (Result ι H)}
    (hnodup : (results.map fun r => r.connection.id).Nodup) (hnone : (s.handled results).processClosing.NoneDead) :
    ∃ cs, (s.handled results).processClosing.Serving cs := by
  -- What remains are the connections of some of the results.
  obtain ⟨rest, hrest, hconnections⟩ : ∃ rest : List (Result ι H), rest.Sublist results ∧
      (s.handled results).processClosing.connections = (rest.map Result.connection).map some := by
    rw [RunState.processClosing]
    split_ifs
    · refine ⟨results.filter (Compact.keeps (fun c => c.state = .closing) ∘ fun r => some r.connection),
        List.filter_sublist, ?_⟩
      show Compact.compact _ (results.map fun r => some r.connection) = _
      rw [Compact.compact_eq_filter, List.filter_map, List.map_map]
      rfl
    · refine ⟨results, List.Sublist.refl _, ?_⟩
      rw [List.map_map]
      rfl
  refine ⟨rest.map Result.connection, hconnections, ?_, ?_, ?_⟩
  · intro c hc
    obtain ⟨c', hc', hlive⟩ := hnone (some c) (by rw [hconnections]; exact List.mem_map_of_mem hc)
    cases hc'
    exact hlive
  · rw [List.map_map]
    exact hnodup.sublist (hrest.map _)
  · rw [RunState.processClosing]
    split_ifs with hcloses
    · rfl
    · exact Bool.eq_false_iff.mpr hcloses

def outcomes (ph : ProtocolHandler H) (cs : List (Connection ι H)) (it : Iteration ι H) : List (Result ι H) :=
  match it.event with
  | .timeout now => cs.map fun c => handleConnectionTime ph (it.outside c.id) now c
  | .accept id handler => cs.map Connection.returned ++ [startConnection ph (it.outside id) (Connection.new id handler)]
  | .sent id _ => cs.map fun c => if c.id = id then handleSent ph (it.outside id) (c.complete it.event) else c.returned
  | .received id _ =>
    cs.map fun c => if c.id = id then handleReceived ph (it.outside id) (c.complete it.event) else c.returned

variable {cs : List (Connection ι H)}

theorem eventLoop_eq {f : Connection ι H → Option (Result ι H)} (g : Connection ι H → Result ι H) (id : ι)
    (hnodup : (cs.map Connection.id).Nodup)
    (hf : ∀ c ∈ cs, f c = if c.id = id then some (g c) else none) :
    eventLoop f (cs.map some) =
      ((cs.map fun c => if c.id = id then g c else c.returned).map fun r => some r.connection,
        (cs.map fun c => if c.id = id then g c else c.returned).any Result.closes) := by
  induction cs with
  | nil => rfl
  | cons c cs ih =>
    rw [List.map_cons, List.nodup_cons] at hnodup
    have ih := ih hnodup.2 fun c' hc' => hf c' (List.mem_cons_of_mem c hc')
    have hc := hf c List.mem_cons_self
    rw [List.map_cons, eventLoop, hc]
    by_cases hid : c.id = id
    · -- No other connection has this operation: the rest is the same whether the loop goes on or not.
      have hrest : (cs.map fun c' => if c'.id = id then g c' else c'.returned) = cs.map Connection.returned := by
        refine List.map_congr_left ?_
        intro c' hc'
        refine if_neg ?_
        rintro rfl
        exact hnodup.1 (hid ▸ List.mem_map_of_mem hc')
      have hsame : (cs.map Connection.returned).map (fun r => some r.connection) = cs.map some := by
        rw [List.map_map]
        rfl
      have hquiet : (cs.map Connection.returned).any Result.closes = false := by
        rw [List.any_map]
        simp [Connection.returned]
      rw [if_pos hid, List.map_cons, List.map_cons, if_pos hid, List.any_cons, ih, hrest, hsame, hquiet]
      simp
    · rw [if_neg hid, List.map_cons, List.map_cons, if_neg hid, List.any_cons, ih]
      rfl

theorem Connection.Live.quiet_sent (hlive : c.Live) {id : ι} (hid : c.id = id)
    (hpending : c.sendPending = true) (n : Nat) :
    (c.complete (.sent id n)).Quiet ∧ (c.complete (.sent id n)).state = .sending := by
  rw [Connection.complete, if_pos hid]
  rcases hlive with ⟨hstate, -, hreceive⟩ | ⟨-, -, hnot⟩
  · exact ⟨⟨rfl, hreceive⟩, hstate⟩
  · rw [hnot] at hpending
    cases hpending

theorem Connection.Live.quiet_received (hlive : c.Live) {id : ι} (hid : c.id = id)
    (hpending : c.receivePending = true) (bytes : Bytes) :
    (c.complete (.received id bytes)).Quiet ∧ (c.complete (.received id bytes)).state = .receiving := by
  rw [Connection.complete, if_pos hid]
  rcases hlive with ⟨-, -, hnot⟩ | ⟨hstate, -, hsend⟩
  · rw [hnot] at hpending
    cases hpending
  · exact ⟨⟨hsend, rfl⟩, hstate⟩

variable {s : RunState ι H}

theorem RunState.Serving.pending (hs : s.Serving cs) {id : ι}
    {p : Connection ι H → Bool} (hpossible : (s.connections.any fun e => e.any fun c => c.id = id ∧ p c) = true)
    (hc : c ∈ cs) (hid : c.id = id) : p c = true := by
  rw [hs.connections, List.any_map, List.any_eq_true] at hpossible
  obtain ⟨c', hc', hboth⟩ := hpossible
  simp only [Function.comp_apply, Option.any_some, decide_eq_true_eq] at hboth
  have hsame : c' = c := List.inj_on_of_nodup_map hs.nodup hc' hc (hboth.1.trans hid.symm)
  exact hsame ▸ hboth.2

theorem handleConnectionEvent_of_ne (ph : ProtocolHandler H) (out : Outside) {op : Pointer ι}
    (hsend : op ≠ .send c.id) (hreceive : op ≠ .receive c.id) : handleConnectionEvent ph out c op = none := by
  rw [handleConnectionEvent]
  rcases c.state with _ | _ | _ | _
  · rfl
  · exact if_neg hsend
  · exact if_neg hreceive
  · rfl

theorem eventLoop_complete (ph : ProtocolHandler H) (hs : s.Serving cs)
    (outside : ι → Outside) (event : Event ι H) (op : Pointer ι) (id : ι) (g : Connection ι H → Result ι H)
    (hown : ∀ c ∈ cs, c.id = id →
      handleConnectionEvent ph (outside c.id) (c.complete event) op = some (g (c.complete event)))
    (hother : ∀ c : Connection ι H, c.id ≠ id → c.complete event = c ∧ op ≠ .send c.id ∧ op ≠ .receive c.id) :
    eventLoop (fun c => handleConnectionEvent ph (outside c.id) c op)
        (s.connections.map (Option.map fun c => c.complete event)) =
      ((cs.map fun c => if c.id = id then g (c.complete event) else c.returned).map fun r => some r.connection,
        (cs.map fun c => if c.id = id then g (c.complete event) else c.returned).any Result.closes) := by
  have hreturned : s.connections.map (Option.map fun c => c.complete event) =
      (cs.map fun c => c.complete event).map some := by
    rw [hs.connections, List.map_map, List.map_map]
    rfl
  have hnodup : ((cs.map fun c => c.complete event).map Connection.id).Nodup := by
    rw [List.map_map]
    simpa [Function.comp_def] using hs.nodup
  have hresults : (cs.map fun c => c.complete event).map (fun c => if c.id = id then g c else c.returned) =
      cs.map fun c => if c.id = id then g (c.complete event) else c.returned := by
    rw [List.map_map]
    refine List.map_congr_left ?_
    intro c _
    simp only [Function.comp_apply, id_complete]
    split_ifs with hid
    · rfl
    · rw [(hother c hid).1]
  rw [hreturned, eventLoop_eq g id hnodup ?_, hresults]
  intro c' hc'
  obtain ⟨c, hc, rfl⟩ := List.mem_map.mp hc'
  rw [id_complete]
  split_ifs with hid
  · exact hown c hc hid
  · obtain ⟨hsame, hsend, hreceive⟩ := hother c hid
    rw [hsame]
    exact handleConnectionEvent_of_ne ph _ hsend hreceive

theorem handleEvent_eq (ph : ProtocolHandler H) (hs : s.Serving cs)
    (it : Iteration ι H) (hpossible : s.possible it.event = true) :
    handleEvent ph s.connections it =
      ((outcomes ph cs it).map fun r => some r.connection, (outcomes ph cs it).any Result.closes) := by
  obtain ⟨event, outside⟩ := it
  cases event with
  | timeout now =>
    simp [handleEvent, outcomes, timerLoop, hs.connections, Connection.complete, Function.comp_def]
  | accept id handler =>
    simp [handleEvent, outcomes, hs.connections, Connection.complete, Connection.returned, Function.comp_def]
  | sent id n =>
    refine eventLoop_complete ph hs outside (.sent id n) (.send id) id (handleSent ph (outside id)) ?_ ?_
    · intro c hc hid
      have hstate := ((hs.live c hc).quiet_sent hid (hs.pending hpossible hc hid) n).2
      rw [handleConnectionEvent, hstate, hid]
      exact if_pos (by rw [id_complete, hid])
    · intro c hid
      exact ⟨if_neg hid, fun heq => hid (Pointer.send.inj heq).symm, fun heq => by cases heq⟩
  | received id bytes =>
    refine eventLoop_complete ph hs outside (.received id bytes) (.receive id) id (handleReceived ph (outside id)) ?_ ?_
    · intro c hc hid
      have hstate := ((hs.live c hc).quiet_received hid (hs.pending hpossible hc hid) bytes).2
      rw [handleConnectionEvent, hstate, hid]
      exact if_pos (by rw [id_complete, hid])
    · intro c hid
      exact ⟨if_neg hid, fun heq => (by cases heq), fun heq => hid (Pointer.receive.inj heq).symm⟩

/-! ### Runs -/

/-- No call throws in the iteration, the first callbacks of timeouts apart. -/
def Succeeds (ph : ProtocolHandler H) (s : RunState ι H) (it : Iteration ι H) : Prop :=
  match it.event with
  | .timeout now => ∀ e ∈ s.connections, ∀ c ∈ e, TimeoutSucceeds ph (it.outside c.id) now c
  | .accept id handler => StartSucceeds ph (it.outside id) handler
  | .sent id _ => ∀ e ∈ s.connections, ∀ c ∈ e, c.id = id → SentSucceeds ph (it.outside id) (c.complete it.event)
  | .received id _ =>
    ∀ e ∈ s.connections, ∀ c ∈ e, c.id = id → ReceivedSucceeds ph (it.outside id) (c.complete it.event)

theorem RunState.Serving.forall_iff (hs : s.Serving cs)
    (P : Connection ι H → Prop) : (∀ e ∈ s.connections, ∀ c ∈ e, P c) ↔ ∀ c ∈ cs, P c := by
  rw [hs.connections]
  simp

theorem settled_returned (hlive : c.Live) : c.returned.Settled ∧ c.returned.Signals :=
  ⟨.inl hlive, signals_of_ne hlive.ne_closing⟩

theorem settled_own (hlive : ∀ c ∈ cs, c.Live) {id : ι} {g : Connection ι H → Result ι H}
    {P : Connection ι H → Prop} (hown : ∀ c ∈ cs, c.id = id → (g c).Signals ∧ ((g c).Settled ↔ P c)) :
    (∀ r ∈ cs.map fun c => if c.id = id then g c else c.returned, Result.Signals r) ∧
      ((∀ r ∈ cs.map fun c => if c.id = id then g c else c.returned, Result.Settled r) ↔ ∀ c ∈ cs, c.id = id → P c) := by
  rw [List.forall_mem_map, List.forall_mem_map]
  refine ⟨?_, forall₂_congr ?_⟩
  · intro c hc
    split_ifs with hid
    · exact (hown c hc hid).1
    · exact (settled_returned (hlive c hc)).2
  · intro c hc
    split_ifs with hid
    · rw [(hown c hc hid).2]
      exact ⟨fun h _ => h, fun h => h hid⟩
    · exact iff_of_true (settled_returned (hlive c hc)).1 fun h => absurd h hid

theorem outcomes_settled_iff (ph : ProtocolHandler H) (hs : s.Serving cs)
    (it : Iteration ι H) (hpossible : s.possible it.event = true) :
    (∀ r ∈ outcomes ph cs it, r.Signals) ∧ ((∀ r ∈ outcomes ph cs it, r.Settled) ↔ Succeeds ph s it) := by
  obtain ⟨event, outside⟩ := it
  cases event with
  | timeout now =>
    refine ⟨List.forall_mem_map.mpr fun c hc => signals_handleConnectionTime (hs.live c hc) now, ?_⟩
    simp only [Succeeds, outcomes]
    rw [hs.forall_iff fun c => TimeoutSucceeds ph (outside c.id) now c, List.forall_mem_map]
    exact forall₂_congr fun c hc => settled_handleConnectionTime (hs.live c hc) now
  | accept id handler =>
    rw [Succeeds, outcomes, List.forall_mem_append, List.forall_mem_append, List.forall_mem_map, List.forall_mem_map,
      List.forall_mem_singleton, List.forall_mem_singleton]
    refine ⟨⟨fun c hc => (settled_returned (hs.live c hc)).2, signals_startConnection rfl⟩, ?_⟩
    rw [and_iff_right fun c hc => (settled_returned (hs.live c hc)).1]
    exact settled_startConnection ⟨rfl, rfl⟩ rfl
  | sent id n =>
    simp only [Succeeds, outcomes]
    rw [hs.forall_iff fun c => c.id = id → SentSucceeds ph (outside id) (c.complete (.sent id n))]
    refine settled_own hs.live ?_
    intro c hc hid
    obtain ⟨hquiet, hstate⟩ := (hs.live c hc).quiet_sent hid (hs.pending hpossible hc hid) n
    exact ⟨signals_handleSent hstate, settled_handleSent hquiet hstate⟩
  | received id bytes =>
    simp only [Succeeds, outcomes]
    rw [hs.forall_iff fun c => c.id = id → ReceivedSucceeds ph (outside id) (c.complete (.received id bytes))]
    refine settled_own hs.live ?_
    intro c hc hid
    obtain ⟨hquiet, hstate⟩ := (hs.live c hc).quiet_received hid (hs.pending hpossible hc hid) bytes
    exact ⟨signals_handleReceived hstate, settled_handleReceived hquiet hstate⟩

theorem ids_own (cs : List (Connection ι H)) (id : ι) {g : Connection ι H → Result ι H}
    (hg : ∀ c, (g c).connection.id = c.id) :
    ((cs.map fun c => if c.id = id then g c else c.returned).map fun r => r.connection.id) = cs.map Connection.id := by
  rw [List.map_map]
  refine List.map_congr_left ?_
  intro c _
  simp only [Function.comp_apply]
  split_ifs
  · exact hg c
  · rfl

theorem nodup_outcomes (ph : ProtocolHandler H) (hs : s.Serving cs)
    (it : Iteration ι H) (hpossible : s.possible it.event = true) :
    ((outcomes ph cs it).map fun r => r.connection.id).Nodup := by
  obtain ⟨event, outside⟩ := it
  cases event with
  | timeout now =>
    rw [outcomes, List.map_map]
    simpa [Function.comp_def] using hs.nodup
  | accept id handler =>
    have hnew : id ∉ cs.map Connection.id := by
      intro hmem
      obtain ⟨c, hc, hid⟩ := List.mem_map.mp hmem
      rw [RunState.possible, hs.connections, List.all_map, List.all_eq_true] at hpossible
      have hne := hpossible c hc
      simp [hid] at hne
    have hids : ((outcomes ph cs ⟨.accept id handler, outside⟩).map fun r => r.connection.id) =
        cs.map Connection.id ++ [id] := by
      rw [outcomes, List.map_append, List.map_map, List.map_singleton, id_startConnection]
      rfl
    rw [hids]
    exact hs.nodup.append (List.nodup_singleton id) (List.disjoint_singleton.mpr hnew)
  | sent id n =>
    simp only [outcomes]
    rw [ids_own cs id fun c => by rw [id_handleSent, id_complete]]
    exact hs.nodup
  | received id bytes =>
    simp only [outcomes]
    rw [ids_own cs id fun c => by rw [id_handleReceived, id_complete]]
    exact hs.nodup

/-- One iteration leaves no dead connection exactly if no call throws, and then the server serves on. -/
theorem noneDead_step {ph : ProtocolHandler H} {s s' : RunState ι H} {it : Iteration ι H} (h : s.step ph it = some s')
    (hs : s.Serving cs) :
    (s'.NoneDead ↔ Succeeds ph s it) ∧ (s'.NoneDead → ∃ cs', s'.Serving cs') := by
  rw [RunState.step] at h
  split_ifs at h with hpossible
  obtain rfl := Option.some.inj h
  obtain ⟨hsignals, hsettled⟩ := outcomes_settled_iff ph hs it hpossible
  have hiterate : s.iterate ph it = (s.handled (outcomes ph cs it)).processClosing := by
    rw [RunState.iterate, handleEvent_eq ph hs it hpossible, hs.closeSignal, Bool.false_or]
    rfl
  rw [hiterate]
  exact ⟨(noneDead_processClosing s hsignals).trans hsettled,
    serving_processClosing s (nodup_outcomes ph hs it hpossible)⟩

theorem RunState.Serving.noneDead (hs : s.Serving cs) : s.NoneDead := by
  intro e he
  rw [hs.connections] at he
  obtain ⟨c, hc, rfl⟩ := List.mem_map.mp he
  exact ⟨c, rfl, hs.live c hc⟩

theorem serving_new : (RunState.new : RunState ι H).Serving [] where
  connections := rfl
  live := fun _ h => by cases h
  nodup := List.nodup_nil
  closeSignal := rfl

/-- **No dead connections, exactly as long as no call throws** (the first callbacks of timeouts apart). -/
theorem noneDead_iff_succeeds (ph : ProtocolHandler H) (its : List (Iteration ι H)) :
    (∀ t ∈ trace (RunState.step ph) RunState.new its, t.post.NoneDead) ↔
      ∀ t ∈ trace (RunState.step ph) RunState.new its, Succeeds ph t.pre t.act := by
  refine forall_post_iff (I := fun s => ∃ cs, RunState.Serving s cs) (C := Succeeds ph) ?_ ?_ ?_ ⟨[], serving_new⟩ its
  · rintro s ⟨cs, hs⟩
    exact hs.noneDead
  · rintro s it s' h ⟨cs, hs⟩ hsucceeds
    obtain ⟨hiff, hserving⟩ := noneDead_step h hs
    exact hserving (hiff.mpr hsucceeds)
  · rintro s it s' h ⟨cs, hs⟩ hthrows hnone
    exact hthrows ((noneDead_step h hs).1.mp hnone)

/-- A handler that sends a byte and throws when it is told the time after that. -/
def throwing : ProtocolHandler Unit where
  getOperation := fun op h => (h, { op with dataToSend := [65] }, true)
  advanceTime := fun _ h => (h, false)
  handleData := fun _ h => (h, true)
  handleSendTimeout := fun _ h => (h, true)
  handleConnectionClose := fun h => (h, true)

/-- A client connects and takes the byte: the connection stays, sending, with no operation outstanding. -/
theorem exception_leaves_dead_connection :
    ∃ s c, final (RunState.step throwing) RunState.new
        [⟨.accept 1 (), fun _ => ⟨false, 0⟩⟩, ⟨.sent 1 1, fun _ => ⟨false, 10⟩⟩] = some s ∧
      s.connections = [some c] ∧ c.state = .sending ∧ c.Quiet ∧ ¬s.NoneDead := by
  refine ⟨_, _, rfl, rfl, rfl, ⟨rfl, rfl⟩, ?_⟩
  intro hnone
  obtain ⟨c, hc, hlive⟩ := hnone _ List.mem_cons_self
  cases hc
  exact not_settled_of_quiet (r := Connection.returned _) ⟨rfl, rfl⟩ (by decide) (.inl hlive)

end Afl.Net.Server
