import Afl.Net.Http.ClientConnection

/-!
# What an event does to a connection

`Settles` says what an operation may do to the request of a connection: keep it, with calls that are not final, or
end it with one final call. Each part of `handleEvent` settles, keeps the connection `Valid` and so returns;
`handleEvent_spec` puts them together. A connection between two events is `Settled`.
-/

namespace Afl.Net.Http

def outcomes (object : Nat) (calls : Calls) : Nat := calls.countP fun c => c.1 = object ∧ c.2.isTerminal

@[simp] theorem outcomes_nil (object : Nat) : outcomes object [] = 0 := rfl

@[simp] theorem outcomes_append (object : Nat) (calls more : Calls) :
    outcomes object (calls ++ more) = outcomes object calls + outcomes object more :=
  List.countP_append

abbrev Key := Nat × UInt32

def ClientRequest.key {ρ : Type} (r : ClientRequest ρ) : Key := (r.object, r.requestId)

/-- What may happen to a request: nothing final, or its end. -/
inductive Settles (key : Option Key) (calls : Calls) : Option Key → Prop
  | keeps (hcalls : ∀ c ∈ calls, ∃ k, key = some k ∧ c.1 = k.1 ∧ c.2.isTerminal = false) : Settles key calls key
  | ends {k : Key} (earlier : Calls) {callback : Callback} (hkey : key = some k)
      (hearlier : ∀ c ∈ earlier, c.1 = k.1 ∧ c.2.isTerminal = false) (hlast : callback.isTerminal = true)
      (hcalls : calls = earlier ++ [(k.1, callback)]) : Settles key calls none

namespace Settles

theorem refl (key : Option Key) : Settles key [] key := .keeps (by simp)

theorem single {k : Key} {callback : Callback} (h : callback.isTerminal = false) :
    Settles (some k) [(k.1, callback)] (some k) := by
  refine .keeps ?_
  intro c hc
  rw [List.mem_singleton] at hc
  exact ⟨k, rfl, by rw [hc], by rw [hc, h]⟩

theorem last {k : Key} {callback : Callback} (h : callback.isTerminal = true) :
    Settles (some k) [(k.1, callback)] none :=
  .ends [] rfl (by simp) h rfl

theorem calls_of_none {calls : Calls} {key : Option Key} (h : Settles none calls key) : calls = [] ∧ key = none := by
  cases h with
  | keeps hcalls =>
    refine ⟨List.eq_nil_iff_forall_not_mem.mpr ?_, rfl⟩
    intro c hc
    obtain ⟨k, hk, -⟩ := hcalls c hc
    cases hk
  | ends earlier hkey => cases hkey

theorem trans {key mid last : Option Key} {calls more : Calls} (h : Settles key calls mid)
    (h' : Settles mid more last) : Settles key (calls ++ more) last := by
  cases h with
  | ends earlier hkey hearlier hlast hcalls =>
    obtain ⟨rfl, rfl⟩ := calls_of_none h'
    rw [List.append_nil]
    exact .ends earlier hkey hearlier hlast hcalls
  | keeps hcalls =>
    cases h' with
    | keeps hmore =>
      refine .keeps ?_
      intro c hc
      rcases List.mem_append.mp hc with hc | hc
      · exact hcalls c hc
      · exact hmore c hc
    | ends earlier hkey hearlier hlast hmore =>
      refine .ends (calls ++ earlier) hkey ?_ hlast (by rw [hmore, List.append_assoc])
      intro c hc
      rcases List.mem_append.mp hc with hc | hc
      · obtain ⟨k', hk', hobject, hterminal⟩ := hcalls c hc
        cases hkey.symm.trans hk'
        exact ⟨hobject, hterminal⟩
      · exact hearlier c hc

theorem object_eq {key last : Option Key} {calls : Calls} (h : Settles key calls last) {c : Nat × Callback}
    (hc : c ∈ calls) : ∃ k, key = some k ∧ c.1 = k.1 := by
  cases h with
  | keeps hcalls =>
    obtain ⟨k, hk, hobject, -⟩ := hcalls c hc
    exact ⟨k, hk, hobject⟩
  | ends earlier hkey hearlier hlast hcalls =>
    refine ⟨_, hkey, ?_⟩
    rw [hcalls, List.mem_append, List.mem_singleton] at hc
    rcases hc with hc | rfl
    · exact (hearlier c hc).1
    · rfl

theorem outcomes_of_not_terminal {calls : Calls} (h : ∀ c ∈ calls, c.2.isTerminal = false) (object : Nat) :
    outcomes object calls = 0 := by
  rw [outcomes, List.countP_eq_zero]
  intro c hc
  simp [h c hc]

/-- **Balance.** A request is held by the connection or has had its final callback. -/
theorem balance {key last : Option Key} {calls : Calls} (h : Settles key calls last) (object : Nat) :
    (last.toList.map Prod.fst).count object + outcomes object calls = (key.toList.map Prod.fst).count object := by
  cases h with
  | keeps hcalls =>
    have hzero : outcomes object calls = 0 := by
      refine outcomes_of_not_terminal ?_ object
      intro c hc
      obtain ⟨k, -, -, hterminal⟩ := hcalls c hc
      exact hterminal
    rw [hzero, Nat.add_zero]
  | ends earlier hkey hearlier hlast hcalls =>
    rename_i k callback
    have hzero : outcomes object earlier = 0 := outcomes_of_not_terminal (fun c hc => (hearlier c hc).2) object
    rw [hcalls, hkey, outcomes_append, hzero]
    by_cases hk : k.1 = object
    · simp [outcomes, hlast, hk]
    · simp [outcomes, hk]

end Settles

namespace ClientConnection

variable {ρ δ : Type}

def key (c : ClientConnection ρ δ) : Option Key := c.request.map ClientRequest.key

/-- What each state promises about the request, its response and the sinks. -/
structure Valid (c : ClientConnection ρ δ) : Prop where
  idle : c.state = .wantWait → c.request = none
  request : c.state ≠ .wantWait → c.state ≠ .wantClose → c.request.isSome ∧ c.response.isSome
  sink : c.state = .beforeReceivePayload ∨ c.state = .duringReceivePayload → c.responseSink.isSome

variable {c : ClientConnection ρ δ}

theorem Valid.of_wantClose (h : c.state = .wantClose) : c.Valid := by
  refine ⟨?_, ?_, ?_⟩ <;> simp [h]

theorem Valid.exists_request (h : c.Valid) (hwait : c.state ≠ .wantWait)
    (hclose : c.state ≠ .wantClose) : ∃ r response, c.request = some r ∧ c.response = some response := by
  obtain ⟨hr, hresponse⟩ := h.request hwait hclose
  obtain ⟨r, hr⟩ := Option.isSome_iff_exists.mp hr
  obtain ⟨response, hresponse⟩ := Option.isSome_iff_exists.mp hresponse
  exact ⟨r, response, hr, hresponse⟩

/-- The states in which a connection waits for something. -/
def IsResting (s : ConnectionState) : Prop :=
  s = .wantWait ∨ s = .duringSend ∨ s = .duringReceiveHeader ∨ s = .duringReceivePayload

/-- A connection between two events. -/
structure Settled (c : ClientConnection ρ δ) : Prop where
  valid : c.Valid
  resting : IsResting c.state
  idleTime : c.idleTime ≤ networkTimeout

/-- What a connection's owner sees of a part of its work. -/
structure Does (w w' : Work ρ δ) : Prop where
  self : w'.conn.self = w.conn.self
  name : w'.conn.name = w.conn.name
  scheme : w'.conn.scheme = w.conn.scheme
  calls : ∃ calls, w'.calls = w.calls ++ calls ∧ Settles w.conn.key calls w'.conn.key

theorem Does.refl (w : Work ρ δ) : Does w w := ⟨rfl, rfl, rfl, [], by simp, .refl _⟩

theorem Does.trans {w₁ w₂ w₃ : Work ρ δ} (h : Does w₁ w₂) (h' : Does w₂ w₃) : Does w₁ w₃ := by
  obtain ⟨calls, hcalls, hsettles⟩ := h.calls
  obtain ⟨more, hmore, hsettles'⟩ := h'.calls
  refine ⟨h'.self.trans h.self, h'.name.trans h.name, h'.scheme.trans h.scheme, calls ++ more, ?_,
    hsettles.trans hsettles'⟩
  rw [hmore, hcalls, List.append_assoc]

/-- The computation returns; it leaves a valid connection in a state that satisfies `P`. -/
def Advances (P : ConnectionState → Prop) (w : Work ρ δ) (m : Option (Work ρ δ)) : Prop :=
  Returns m fun w' => Does w w' ∧ w'.conn.Valid ∧ P w'.conn.state

variable {w : Work ρ δ}

theorem Advances.mono {P Q : ConnectionState → Prop} {m : Option (Work ρ δ)} (h : Advances P w m)
    (hPQ : ∀ s, P s → Q s) : Advances Q w m :=
  Returns.mono h fun _ hw => ⟨hw.1, hw.2.1, hPQ _ hw.2.2⟩

theorem Advances.trans {P : ConnectionState → Prop} {w w' : Work ρ δ} {m : Option (Work ρ δ)} (hw : Does w w')
    (h : Advances P w' m) : Advances P w m :=
  Returns.mono h fun _ hw' => ⟨hw.trans hw'.1, hw'.2⟩

theorem Advances.bind {P : ConnectionState → Prop} {Q : Work ρ δ → Prop} {m : Option (Work ρ δ)}
    {f : Work ρ δ → Option (Work ρ δ)} (h : Advances P w m)
    (hf : ∀ w', Does w w' → w'.conn.Valid → P w'.conn.state → Returns (f w') Q) : Returns (m >>= f) Q :=
  Returns.bind h fun w' hw' => hf w' hw'.1 hw'.2.1 hw'.2.2

variable {r : ClientRequest ρ}

namespace Work

theorem does_calls (hr : w.conn.request = some r) {calls : Calls}
    (hcalls : ∀ c ∈ calls, c.1 = r.object ∧ c.2.isTerminal = false) {data : ρ} {response : Option ClientResponse}
    {sink : Option (ResponseSinks δ)} {state : ConnectionState} {idle : UInt32} {op : SendOperation} {received : Bytes}
    {active : Option OperationKind} :
    Does w ⟨⟨w.conn.self, w.conn.name, w.conn.scheme, some ⟨r.object, r.requestId, data⟩, response, sink, state, idle,
      op, received, active⟩, w.calls ++ calls⟩ := by
  refine ⟨rfl, rfl, rfl, calls, rfl, ?_⟩
  have hkey : w.conn.key = some r.key := by rw [key, hr]; rfl
  show Settles w.conn.key calls (some r.key)
  rw [hkey]
  refine .keeps ?_
  intro c hc
  exact ⟨r.key, rfl, hcalls c hc⟩

theorem does_quiet (w : Work ρ δ) {response : Option ClientResponse} {sink : Option (ResponseSinks δ)}
    {state : ConnectionState} {idle : UInt32} {op : SendOperation} {received : Bytes}
    {active : Option OperationKind} :
    Does w ⟨⟨w.conn.self, w.conn.name, w.conn.scheme, w.conn.request, response, sink, state, idle, op, received,
      active⟩, w.calls⟩ :=
  ⟨rfl, rfl, rfl, [], by simp, .refl _⟩

theorem when_spec {P : ConnectionState → Prop} {p : ClientConnection ρ δ → Bool}
    {f : Work ρ δ → Option (Work ρ δ)} (hw : w.conn.Valid) (hskip : p w.conn = false → P w.conn.state)
    (hf : p w.conn = true → Advances P w (f w)) : Advances P w (w.when p f) := by
  unfold when
  split_ifs with hp
  · exact hf hp
  · exact Returns.some_iff.mpr ⟨.refl w, hw, hskip (by simpa using hp)⟩

theorem startReceive_spec (hw : w.conn.Valid) {before next : ConnectionState} (hbefore : w.conn.state = before)
    (hstates : before = .beforeReceiveHeader ∧ next = .duringReceiveHeader ∨
      before = .beforeReceivePayload ∧ next = .duringReceivePayload) :
    Advances (· = next) w (startReceive next w) := by
  refine Returns.some_iff.mpr ⟨does_quiet w, ?_, rfl⟩
  subst hbefore
  rcases hstates with ⟨hstate, rfl⟩ | ⟨hstate, rfl⟩
  · have hrequest := hw.request (by simp [hstate]) (by simp [hstate])
    exact ⟨by simp [receiveAsync], by simpa [receiveAsync] using hrequest, by simp [receiveAsync]⟩
  · have hrequest := hw.request (by simp [hstate]) (by simp [hstate])
    have hsink := hw.sink (.inl hstate)
    exact ⟨by simp [receiveAsync], by simpa [receiveAsync] using hrequest, by simpa [receiveAsync] using hsink⟩

theorem finish_eq (hr : w.conn.request = some r) (callback : Callback) (next : ConnectionState) :
    w.finish callback next = some ⟨{ w.conn.reset with state := next }, w.calls ++ [(r.object, callback)]⟩ := by
  simp [finish, hr]

theorem finish_spec (w : Work ρ δ) (hr : w.conn.request = some r) {callback : Callback}
    (hterminal : callback.isTerminal = true) {next : ConnectionState} (hnext : next = .wantWait ∨ next = .wantClose) :
    Advances (· = next) w (w.finish callback next) := by
  have hkey : w.conn.key = some r.key := by rw [key, hr]; rfl
  rw [Advances, finish_eq hr, Returns.some_iff]
  refine ⟨⟨rfl, rfl, rfl, [(r.object, callback)], rfl, ?_⟩, ?_, rfl⟩
  · rw [hkey]
    exact Settles.last hterminal
  · rcases hnext with rfl | rfl
    · exact ⟨fun _ => rfl, by simp, by simp⟩
    · exact .of_wantClose rfl

section

variable [RequestClass ρ]

theorem restartOrFail_spec (w : Work ρ δ) (hr : w.conn.request = some r)
    (reason : FailureReason) : Advances (· = .wantClose) w (restartOrFail reason w) := by
  have hcall : ∀ allowed, ∀ c ∈ [(r.object, Callback.restart allowed)], c.1 = r.object ∧ c.2.isTerminal = false := by
    simp [Callback.isTerminal]
  rcases hrestart : RequestClass.restart r.data with ⟨allowed, data⟩
  cases allowed with
  | true =>
    simp only [restartOrFail, hr, hrestart, Option.bind_eq_bind, Option.bind_some, if_true, Advances, Returns.some_iff]
    exact ⟨does_calls hr (hcall true), .of_wantClose rfl, trivial⟩
  | false =>
    simp only [restartOrFail, hr, hrestart, Option.bind_eq_bind, Option.bind_some, Bool.false_eq_true, if_false]
    have hdoes : Does w ⟨w.conn, w.calls ++ [(r.object, .restart false)]⟩ := by
      refine ⟨rfl, rfl, rfl, _, rfl, ?_⟩
      rw [key, hr]
      exact .single rfl
    exact Advances.trans hdoes (finish_spec ⟨w.conn, w.calls ++ [(r.object, .restart false)]⟩ hr rfl (.inr rfl))

theorem sendFinished_spec (hw : w.conn.Valid) (hstate : w.conn.state = .duringSend) :
    Advances (fun _ => True) w w.sendFinished := by
  obtain ⟨r, response, hr, hresponse⟩ := hw.exists_request (by simp [hstate]) (by simp [hstate])
  unfold sendFinished
  split_ifs
  · refine Returns.some_iff.mpr ⟨does_quiet w, ⟨by simp, ?_, by simp⟩, trivial⟩
    simp [hr, hresponse]
  · exact (restartOrFail_spec w hr _).mono fun _ _ => trivial
  · refine Returns.some_iff.mpr ⟨does_quiet w, ⟨by simp [sendAsync], ?_, by simp [sendAsync]⟩, trivial⟩
    simp [sendAsync, hr, hresponse]

theorem startSend_spec (hw : w.conn.Valid) (hstate : w.conn.state = .beforeSend) :
    Advances (· ≠ .beforeSend) w w.startSend := by
  obtain ⟨r, response, hr, hresponse⟩ := hw.exists_request (by simp [hstate]) (by simp [hstate])
  have hcall : ∀ data, ∀ c ∈ [(r.object, Callback.getRequestData data)], c.1 = r.object ∧ c.2.isTerminal = false := by
    simp [Callback.isTerminal]
  rcases hdata : RequestClass.getRequestData r.data with ⟨data, next⟩
  simp only [startSend, hr, hdata, Option.bind_eq_bind, Option.bind_some]
  split_ifs
  · refine Returns.some_iff.mpr ⟨does_calls hr (hcall data), ⟨by simp, ?_, by simp⟩, by simp⟩
    simp [hresponse]
  · refine Returns.some_iff.mpr ⟨does_calls hr (hcall data), ⟨by simp [sendAsync], ?_, by simp [sendAsync]⟩, ?_⟩
    · simp [sendAsync, hresponse]
    · simp [sendAsync]

theorem checkTimeout_spec (hw : w.conn.Valid) (hstate : IsResting w.conn.state ∨ w.conn.state = .wantClose) :
    Returns w.checkTimeout fun w' => Does w w' ∧ (w'.conn.Settled ∨ w'.conn.state = .wantClose) := by
  have hclose : ∀ {m : Option (Work ρ δ)}, Advances (· = .wantClose) w.cancelOperation m →
      Returns m fun w' => Does w w' ∧ (w'.conn.Settled ∨ w'.conn.state = .wantClose) := by
    intro m hm
    have hdoes : Does w w.cancelOperation := does_quiet w
    exact Returns.mono (Advances.trans hdoes hm) fun w' hw' => ⟨hw'.1, .inr hw'.2.2⟩
  have hstay : ¬w.conn.idleTime > networkTimeout → IsResting w.conn.state →
      Returns (some w) fun w' => Does w w' ∧ (w'.conn.Settled ∨ w'.conn.state = .wantClose) :=
    fun hidle hrest => Returns.some_iff.mpr ⟨.refl w, .inl ⟨hw, hrest, UInt32.not_lt.mp hidle⟩⟩
  have hrequest := hw.exists_request
  unfold checkTimeout
  rcases hstate with (hs | hs | hs | hs) | hs <;> rw [hs] at hrequest hstay ⊢ <;> simp only
  · split_ifs with hidle
    · exact Returns.some_iff.mpr ⟨does_quiet w, .inr rfl⟩
    · exact hstay hidle (.inl rfl)
  · obtain ⟨r, response, hr, -⟩ := hrequest (by simp) (by simp)
    split_ifs with hidle
    · exact hclose (restartOrFail_spec w.cancelOperation hr _)
    · exact hstay hidle (.inr (.inl rfl))
  · obtain ⟨r, response, hr, -⟩ := hrequest (by simp) (by simp)
    split_ifs with hidle
    · exact hclose (restartOrFail_spec w.cancelOperation hr _)
    · exact hstay hidle (.inr (.inr (.inl rfl)))
  · obtain ⟨r, response, hr, -⟩ := hrequest (by simp) (by simp)
    split_ifs with hidle
    · exact hclose (finish_spec w.cancelOperation hr rfl (.inr rfl))
    · exact hstay hidle (.inr (.inr (.inr rfl)))
  · exact Returns.some_iff.mpr ⟨.refl w, .inr hs⟩

variable [InflateClass δ]

theorem receivePayload_spec (w : Work ρ δ) {response : ClientResponse} {sinks : ResponseSinks δ}
    (hr : w.conn.request = some r) (hresponse : w.conn.response = some response)
    (hsinks : w.conn.responseSink = some sinks) (data : Bytes) :
    Advances (fun _ => True) w (w.receivePayload data) := by
  rcases hdata : sinks.handleData data with ⟨pieces, result⟩
  simp only [receivePayload, hr, hsinks, hdata, Option.bind_eq_bind, Option.bind_some]
  have hcalls : ∀ c ∈ pieces.map fun piece => (r.object, Callback.handleResponseData piece),
      c.1 = r.object ∧ c.2.isTerminal = false := by
    simp [Callback.isTerminal]
  cases result with
  | error e =>
    exact ((finish_spec ⟨_, _⟩ rfl rfl (.inr rfl)).mono fun _ _ => trivial).trans (does_calls hr hcalls)
  | ok next =>
    simp only
    split_ifs
    · exact ((finish_spec ⟨_, _⟩ rfl rfl (.inl rfl)).mono fun _ _ => trivial).trans (does_calls hr hcalls)
    · refine Returns.some_iff.mpr ⟨does_calls hr hcalls, ⟨by simp, ?_, by simp⟩, trivial⟩
      simp [hresponse]

theorem receiveHeader_spec (w : Work ρ δ) {response : ClientResponse}
    (hr : w.conn.request = some r) (hresponse : w.conn.response = some response) (data : Bytes) :
    Advances (fun _ => True) w (w.receiveHeader data) := by
  rcases hdata : response.handleData data with ⟨next, rest⟩
  simp only [receiveHeader, hr, hresponse, hdata, Option.bind_eq_bind, Option.bind_some]
  have hcalls : ∀ c ∈ [(r.object, Callback.handleResponseHeader)], c.1 = r.object ∧ c.2.isTerminal = false := by
    simp [Callback.isTerminal]
  split_ifs
  · rcases ResponseSinks.create next with e | sinks <;> simp only
    · exact ((finish_spec ⟨_, _⟩ rfl rfl (.inr rfl)).mono fun _ _ => trivial).trans (does_calls hr hcalls)
    · exact (receivePayload_spec ⟨_, _⟩ rfl rfl rfl rest).trans (does_calls hr hcalls)
  · rw [← hr]
    refine Returns.some_iff.mpr ⟨does_quiet w, ⟨by simp, ?_, by simp⟩, trivial⟩
    simp [hr]

theorem headerReceived_spec (hw : w.conn.Valid) (hstate : w.conn.state = .duringReceiveHeader) :
    Advances (fun _ => True) w w.headerReceived := by
  obtain ⟨r, response, hr, hresponse⟩ := hw.exists_request (by simp [hstate]) (by simp [hstate])
  unfold headerReceived
  split_ifs
  · exact (restartOrFail_spec w hr _).mono fun _ _ => trivial
  · exact receiveHeader_spec w hr hresponse _

theorem payloadReceived_spec (hw : w.conn.Valid) (hstate : w.conn.state = .duringReceivePayload) :
    Advances (fun _ => True) w w.payloadReceived := by
  obtain ⟨r, response, hr, hresponse⟩ := hw.exists_request (by simp [hstate]) (by simp [hstate])
  obtain ⟨sinks, hsinks⟩ := Option.isSome_iff_exists.mp (hw.sink (.inr hstate))
  unfold payloadReceived
  split_ifs
  · simp only [hresponse, Option.bind_eq_bind, Option.bind_some]
    split_ifs
    · exact (finish_spec w hr rfl (.inr rfl)).mono fun _ _ => trivial
    · exact (finish_spec w hr rfl (.inr rfl)).mono fun _ _ => trivial
  · exact receivePayload_spec w hr hresponse hsinks _

end

end Work

section

variable [RequestClass ρ] [InflateClass δ]

/-- **What an event does.** It settles the request, and leaves a settled connection or one that wants to close. -/
theorem handleEvent_spec (hc : c.Valid) (p : Option AsyncOperation) (elapsed : UInt32) :
    Returns (c.handleEvent p elapsed) fun w => Does ⟨c, []⟩ w ∧ (w.conn.Settled ∨ w.conn.state = .wantClose) := by
  have htime : Does ⟨c, []⟩ ⟨{ c with idleTime := c.idleTime + elapsed }, []⟩ := Work.does_quiet ⟨c, []⟩
  have hvalid : ({ c with idleTime := c.idleTime + elapsed } : ClientConnection ρ δ).Valid :=
    ⟨hc.idle, hc.request, hc.sink⟩
  have hin : ∀ {state : ConnectionState} {c : ClientConnection ρ δ}, isIn state c = true ↔ c.state = state := by
    simp [isIn]
  unfold handleEvent
  refine (Work.when_spec (P := fun _ => True) hvalid (fun _ => trivial) ?_).bind fun w₁ h₁ hv₁ _ => ?_
  · intro hp
    exact Work.sendFinished_spec hvalid (by simpa using (of_decide_eq_true hp).1)
  refine (Work.when_spec (P := fun _ => True) hv₁ (fun _ => trivial) ?_).bind fun w₂ h₂ hv₂ _ => ?_
  · intro hp
    exact Work.headerReceived_spec hv₁ (of_decide_eq_true hp).1
  refine (Work.when_spec (P := fun _ => True) hv₂ (fun _ => trivial) ?_).bind fun w₃ h₃ hv₃ _ => ?_
  · intro hp
    exact Work.payloadReceived_spec hv₂ (of_decide_eq_true hp).1
  refine (Work.when_spec (P := (· ≠ .beforeSend)) hv₃ ?_ ?_).bind fun w₄ h₄ hv₄ hs₄ => ?_
  · simp [isIn]
  · intro hp
    exact Work.startSend_spec hv₃ (hin.mp hp)
  refine (Work.when_spec (P := fun s => s ≠ .beforeSend ∧ s ≠ .beforeReceiveHeader) hv₄ ?_ ?_).bind
    fun w₅ h₅ hv₅ hs₅ => ?_
  · intro hp
    exact ⟨hs₄, by simpa [isIn] using hp⟩
  · intro hp
    refine (Work.startReceive_spec hv₄ (hin.mp hp) (.inl ⟨rfl, rfl⟩)).mono ?_
    rintro _ rfl
    simp
  refine (Work.when_spec (P := fun s => IsResting s ∨ s = .wantClose) hv₅ ?_ ?_).bind fun w₆ h₆ hv₆ hs₆ => ?_
  · intro hp
    have hne : w₅.conn.state ≠ .beforeReceivePayload := by simpa [isIn] using hp
    unfold IsResting
    cases hs : w₅.conn.state <;> simp_all
  · intro hp
    refine (Work.startReceive_spec hv₅ (hin.mp hp) (.inr ⟨rfl, rfl⟩)).mono ?_
    rintro _ rfl
    simp [IsResting]
  refine (Work.checkTimeout_spec hv₆ hs₆).mono fun w hw => ⟨?_, hw.2⟩
  exact htime.trans (h₁.trans (h₂.trans (h₃.trans (h₄.trans (h₅.trans (h₆.trans hw.1))))))

/-- Without a finished operation and without time passing, nothing happens to a settled connection. -/
theorem handleEvent_settled (hc : c.Settled) : c.handleEvent none 0 = some ⟨c, []⟩ := by
  have hidle : ¬c.idleTime > networkTimeout := UInt32.not_lt.mpr hc.idleTime
  have htime : ({ c with idleTime := c.idleTime + 0 } : ClientConnection ρ δ) = c := by simp
  rw [handleEvent, htime]
  rcases hc.resting with hs | hs | hs | hs <;>
    simp [Work.when, finishedIn, isIn, Work.checkTimeout, hs, hidle, show idleTimeout = networkTimeout from rfl]

theorem handleEvent_wantClose (hc : c.state = .wantClose) :
    c.handleEvent none 0 = some ⟨c, []⟩ := by
  have htime : ({ c with idleTime := c.idleTime + 0 } : ClientConnection ρ δ) = c := by simp
  rw [handleEvent, htime]
  simp [Work.when, finishedIn, isIn, Work.checkTimeout, hc]

end

/-! ### Cancelling -/

theorem cancel_of_none (hw : w.conn.request = none) : cancel w = w := by
  simp [cancel, hw]

theorem cancelRequest_of_none (hw : w.conn.request = none) (id : UInt32) : cancelRequest w id = w := by
  simp [cancelRequest, hw]

theorem cancel_request (w : Work ρ δ) : (cancel w).conn.request = none := by
  unfold cancel
  split
  · assumption
  · rfl

theorem cancel_state (hr : w.conn.request = some r) :
    (cancel w).conn.state = .wantClose := by
  simp [cancel, hr]

theorem does_cancel (w : Work ρ δ) : Does w (cancel w) := by
  rcases hr : w.conn.request with _ | r
  · rw [cancel_of_none hr]
    exact .refl w
  · simp only [cancel, hr]
    refine ⟨rfl, rfl, rfl, _, rfl, ?_⟩
    rw [key, hr]
    exact Settles.last rfl

def isCancelled (ids : List UInt32) (c : ClientConnection ρ δ) : Bool := c.request.any fun r => r.requestId ∈ ids

theorem foldl_cancelRequest (ids : List UInt32) (w : Work ρ δ) :
    ids.foldl cancelRequest w = if isCancelled ids w.conn then cancel w else w := by
  rcases hr : w.conn.request with _ | r
  · have hnone : ∀ ids : List UInt32, ids.foldl cancelRequest w = w := by
      intro ids
      induction ids with
      | nil => rfl
      | cons id ids ih => rw [List.foldl_cons, cancelRequest_of_none hr, ih]
    rw [hnone, if_neg (by simp [isCancelled, hr])]
  · have hdone : ∀ ids : List UInt32, ids.foldl cancelRequest (cancel w) = cancel w := by
      intro ids
      induction ids with
      | nil => rfl
      | cons id ids ih => rw [List.foldl_cons, cancelRequest_of_none (cancel_request w), ih]
    induction ids with
    | nil => simp [isCancelled, hr]
    | cons id ids ih =>
      rw [List.foldl_cons]
      by_cases hid : r.requestId = id
      · have hfirst : cancelRequest w id = cancel w := by simp [cancelRequest, hr, hid]
        rw [hfirst, hdone, if_pos (by simp [isCancelled, hr, hid])]
      · have hfirst : cancelRequest w id = w := by simp [cancelRequest, hr, hid]
        rw [hfirst, ih]
        simp [isCancelled, hr, hid]

end ClientConnection

end Afl.Net.Http
