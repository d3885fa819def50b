import Afl.Net.Http.Client
import Afl.Net.Http.ConnectionSteps

/-!
# What the client does to its requests

`Transfers` is the account of a step: the requests held before are held after or have had their final callback, and
nobody else was called. Each function of the client comes with what it does in these terms. As long as no entry of
`m_requests` is null and the connections are settled, none of them goes wrong.
-/

namespace Afl.Net.Http

/-! ### Accounts -/

/-- The requests held, the calls made and the requests held afterwards. -/
structure Transfers (before : List Key) (calls : Calls) (after : List Key) : Prop where
  balance : ∀ object, (after.map Prod.fst).count object + outcomes object calls = (before.map Prod.fst).count object
  mem : ∀ k ∈ after, k ∈ before
  called : ∀ c ∈ calls, c.1 ∈ before.map Prod.fst

namespace Transfers

variable {before mid after before' after' : List Key} {calls more : Calls}

theorem of_perm (h : after.Perm before) : Transfers before [] after := by
  refine ⟨?_, fun k hk => h.mem_iff.mp hk, by simp⟩
  intro object
  rw [outcomes_nil, Nat.add_zero, (h.map Prod.fst).count_eq]

theorem refl (held : List Key) : Transfers held [] held := of_perm (List.Perm.refl held)

theorem mem_objects (h : Transfers before calls after) {object : Nat} (hmem : object ∈ after.map Prod.fst) :
    object ∈ before.map Prod.fst := by
  obtain ⟨k, hk, rfl⟩ := List.mem_map.mp hmem
  exact List.mem_map_of_mem (h.mem k hk)

theorem trans (h : Transfers before calls mid) (h' : Transfers mid more after) :
    Transfers before (calls ++ more) after := by
  refine ⟨?_, fun k hk => h.mem k (h'.mem k hk), ?_⟩
  · intro object
    have hfirst := h.balance object
    have hsecond := h'.balance object
    rw [outcomes_append]
    omega
  · intro c hc
    rcases List.mem_append.mp hc with hc | hc
    · exact h.called c hc
    · exact h.mem_objects (h'.called c hc)

theorem append (h : Transfers before calls after) (h' : Transfers before' more after') :
    Transfers (before ++ before') (calls ++ more) (after ++ after') := by
  refine ⟨?_, ?_, ?_⟩
  · intro object
    have hfirst := h.balance object
    have hsecond := h'.balance object
    rw [outcomes_append, List.map_append, List.map_append, List.count_append, List.count_append]
    omega
  · intro k hk
    rcases List.mem_append.mp hk with hk | hk
    · exact List.mem_append_left _ (h.mem k hk)
    · exact List.mem_append_right _ (h'.mem k hk)
  · intro c hc
    rw [List.map_append, List.mem_append]
    rcases List.mem_append.mp hc with hc | hc
    · exact .inl (h.called c hc)
    · exact .inr (h'.called c hc)

theorem frame (h : Transfers before calls after) (held : List Key) :
    Transfers (before ++ held) calls (after ++ held) := by
  simpa using h.append (refl held)

theorem perm (h : Transfers before calls after) (hbefore : before'.Perm before) (hafter : after'.Perm after) :
    Transfers before' calls after' := by
  simpa using ((of_perm hbefore.symm).trans h).trans (of_perm hafter)

theorem of_settles {key last : Option Key} (h : Settles key calls last) :
    Transfers key.toList calls last.toList := by
  refine ⟨h.balance, ?_, ?_⟩
  · cases h with
    | keeps => exact fun k hk => hk
    | ends => simp
  · intro c hc
    obtain ⟨k, hk, hobject⟩ := h.object_eq hc
    simp [hk, hobject]

theorem finish {ρ : Type} (requests : List (ClientRequest ρ)) {callback : Callback}
    (hterminal : callback.isTerminal = true) :
    Transfers (requests.map ClientRequest.key) (requests.map fun r => (r.object, callback)) [] := by
  induction requests with
  | nil => exact refl []
  | cons r requests ih => exact (of_settles (Settles.last (k := r.key) hterminal)).append ih

end Transfers

namespace Client

variable {ρ δ : Type}

/-! ### The queue -/

/-- The requests of `m_requests`. -/
def queue (c : Client ρ δ) : List (ClientRequest ρ) := c.requests.filterMap id

/-- No entry of `m_requests` is null. -/
def NoNull (c : Client ρ δ) : Prop := c.requests = c.queue.map some

variable {c : Client ρ δ}

theorem queue_of_requests {queue : List (ClientRequest ρ)} (h : c.requests = queue.map some) :
    c.queue = queue := by
  simp [Client.queue, h, List.filterMap_map]

theorem noNull_of_requests {queue : List (ClientRequest ρ)} (h : c.requests = queue.map some) :
    c.NoNull := by
  rw [NoNull, queue_of_requests h, h]

theorem noNull_iff : c.NoNull ↔ none ∉ c.requests := by
  constructor
  · intro h
    rw [h]
    simp
  · intro h
    have hall : ∀ requests : List (Option (ClientRequest ρ)), none ∉ requests →
        requests = (requests.filterMap id).map some := by
      intro requests hnone
      induction requests with
      | nil => rfl
      | cons x requests ih =>
        rcases x with _ | r
        · simp at hnone
        · simpa using ih fun hmem => hnone (List.mem_cons_of_mem _ hmem)
    exact hall _ h

theorem takeFirst_cases (p : ClientRequest ρ → Bool) (queue : List (ClientRequest ρ)) :
    (∀ r ∈ queue, p r = false) ∧ takeFirst p (queue.map some) = some (none, queue.map some) ∨
      ∃ r pre post, queue = pre ++ r :: post ∧ p r = true ∧ (∀ q ∈ pre, p q = false) ∧
        takeFirst p (queue.map some) = some (some r, (pre ++ post).map some) := by
  induction queue with
  | nil => exact .inl ⟨by simp, rfl⟩
  | cons r queue ih =>
    rcases hp : p r with _ | _
    · rcases ih with ⟨hall, htake⟩ | ⟨q, pre, post, hqueue, hq, hpre, htake⟩
      · exact .inl ⟨by simpa [hp] using hall, by simp [takeFirst, hp, htake]⟩
      · refine .inr ⟨q, r :: pre, post, by rw [hqueue, List.cons_append], hq, by simpa [hp] using hpre, ?_⟩
        simp [takeFirst, hp, htake]
    · exact .inr ⟨r, [], queue, rfl, hp, by simp, by simp [takeFirst, hp]⟩

theorem takeFirst_some {p : ClientRequest ρ → Bool} {requests rest : List (Option (ClientRequest ρ))}
    {found : Option (ClientRequest ρ)} (h : takeFirst p requests = some (found, rest)) :
    found = none ∧ rest = requests ∨
      ∃ r pre post, found = some r ∧ p r = true ∧ requests = pre ++ some r :: post ∧ rest = pre ++ post := by
  induction requests generalizing found rest with
  | nil =>
    cases h
    exact .inl ⟨rfl, rfl⟩
  | cons x requests ih =>
    rcases x with _ | r
    · cases h
    · rw [takeFirst] at h
      split_ifs at h with hp
      · cases h
        exact .inr ⟨r, [], requests, rfl, hp, rfl, rfl⟩
      · rcases htake : takeFirst p requests with _ | ⟨found', rest'⟩ <;> rw [htake] at h <;> cases h
        rcases ih htake with ⟨hnone, hrest⟩ | ⟨q, pre, post, hq, hpq, hsplit, hrest⟩
        · exact .inl ⟨hnone, by rw [hrest]⟩
        · exact .inr ⟨q, some r :: pre, post, hq, hpq, by rw [hsplit, List.cons_append],
            by rw [hrest, List.cons_append]⟩

section

variable [RequestClass ρ]

theorem cancelTargets_map (name : Name) (scheme : Bytes) (reason : FailureReason) (message : Bytes)
    (queue : List (ClientRequest ρ)) :
    cancelTargets name scheme reason message (queue.map some) =
      some ((queue.filter (isTarget name scheme)).map (failure reason message),
        (queue.filter fun r => !isTarget name scheme r).map some) := by
  induction queue with
  | nil => rfl
  | cons r queue ih =>
    rw [List.map_cons, cancelTargets, ih]
    by_cases hr : isTarget name scheme r = true <;> simp [hr]

theorem noNull_of_cancelTargets {name : Name} {scheme : Bytes} {reason : FailureReason} {message : Bytes}
    {requests rest : List (Option (ClientRequest ρ))} {calls : Calls}
    (h : cancelTargets name scheme reason message requests = some (calls, rest)) : none ∉ requests := by
  induction requests generalizing calls rest with
  | nil => simp
  | cons x requests ih =>
    rcases x with _ | r
    · cases h
    · rcases htargets : cancelTargets name scheme reason message requests with _ | ⟨calls', rest'⟩
      · rw [cancelTargets, htargets] at h
        cases h
      · simpa using ih htargets

theorem unsatisfiedTarget_map_ne_none (conns : List (ClientConnection ρ δ)) (queue : List (ClientRequest ρ)) :
    unsatisfiedTarget conns (queue.map some) ≠ none := by
  induction queue with
  | nil => simp [unsatisfiedTarget]
  | cons r queue ih =>
    rw [List.map_cons, unsatisfiedTarget]
    split_ifs
    · exact ih
    · simp

end

/-! ### Serving connections -/

def target (conn : ClientConnection ρ δ) : Name × Bytes := (conn.name, conn.scheme)

def heldBy (conns : List (ClientConnection ρ δ)) (c : Client ρ δ) : List Key :=
  conns.filterMap ClientConnection.key ++ c.queue.map ClientRequest.key

def held (c : Client ρ δ) : List Key := heldBy c.connections c

/-- The worker has dealt with the connections `conns` and leaves `conns'` of them. Unless it asks for a new connection,
it has removed none of them and has put no request into the queue. -/
structure Served (conns conns' : List (ClientConnection ρ δ)) (c c' : Client ρ δ) : Prop where
  provider : c'.provider = c.provider
  cancels : c'.cancels = c.cancels
  stop : c'.stop = c.stop
  requestIdCounter : c'.requestIdCounter = c.requestIdCounter
  created : c'.created = c.created
  noNull : c'.NoNull
  account : ∃ calls, c'.calls = c.calls ++ calls ∧ Transfers (heldBy conns c) calls (heldBy conns' c')
  flag : c'.needNewConnection = true ∨
    c'.needNewConnection = c.needNewConnection ∧ c'.queue ⊆ c.queue ∧ conns'.map target = conns.map target

variable {conn : ClientConnection ρ δ}

namespace Served

variable {conns conns' conns₁ conns₂ conns₃ : List (ClientConnection ρ δ)} {c c' c₁ c₂ c₃ : Client ρ δ}

theorem refl (conns : List (ClientConnection ρ δ)) (hc : c.NoNull) : Served conns conns c c :=
  ⟨rfl, rfl, rfl, rfl, rfl, hc, ⟨[], by simp, .refl _⟩, .inr ⟨rfl, List.Subset.refl _, rfl⟩⟩

theorem trans (h : Served conns₁ conns₂ c₁ c₂) (h' : Served conns₂ conns₃ c₂ c₃) : Served conns₁ conns₃ c₁ c₃ := by
  obtain ⟨calls, hcalls, haccount⟩ := h.account
  obtain ⟨more, hmore, haccount'⟩ := h'.account
  refine ⟨h'.provider.trans h.provider, h'.cancels.trans h.cancels, h'.stop.trans h.stop,
    h'.requestIdCounter.trans h.requestIdCounter, h'.created.trans h.created, h'.noNull,
    ⟨calls ++ more, by rw [hmore, hcalls, List.append_assoc], haccount.trans haccount'⟩, ?_⟩
  rcases h'.flag with hflag' | ⟨hflag', hqueue', htargets'⟩
  · exact .inl hflag'
  · rcases h.flag with hflag | ⟨hflag, hqueue, htargets⟩
    · exact .inl (hflag'.trans hflag)
    · exact .inr ⟨hflag'.trans hflag, List.Subset.trans hqueue' hqueue, htargets'.trans htargets⟩

theorem heldBy_around (left right conns : List (ClientConnection ρ δ)) (c : Client ρ δ) :
    (heldBy (left ++ conns ++ right) c).Perm (heldBy conns c ++ (left ++ right).filterMap ClientConnection.key) := by
  have hmid : (heldBy (left ++ conns ++ right) c).Perm (heldBy (conns ++ (left ++ right)) c) := by
    refine List.Perm.append_right _ (List.Perm.filterMap _ ?_)
    rw [← List.append_assoc conns]
    exact List.perm_append_comm.append_right _
  refine hmid.trans ?_
  rw [heldBy, heldBy, List.filterMap_append, List.append_assoc, List.append_assoc]
  exact List.perm_append_comm.append_left _

theorem around (h : Served conns₁ conns₂ c c') (left right : List (ClientConnection ρ δ)) :
    Served (left ++ conns₁ ++ right) (left ++ conns₂ ++ right) c c' := by
  obtain ⟨calls, hcalls, haccount⟩ := h.account
  refine ⟨h.provider, h.cancels, h.stop, h.requestIdCounter, h.created, h.noNull, ⟨calls, hcalls, ?_⟩, ?_⟩
  · exact (haccount.frame _).perm (heldBy_around left right _ _) (heldBy_around left right _ _)
  · rcases h.flag with hflag | ⟨hflag, hqueue, htargets⟩
    · exact .inl hflag
    · exact .inr ⟨hflag, hqueue, by simp [htargets]⟩

theorem of_does {w : ClientConnection.Work ρ δ}
    (h : ClientConnection.Does ⟨conn, []⟩ w) (hc : c.NoNull) : Served [conn] [w.conn] c (c.record w.calls) := by
  obtain ⟨calls, hcalls, hsettles⟩ := h.calls
  refine ⟨rfl, rfl, rfl, rfl, rfl, hc, ⟨w.calls, rfl, ?_⟩, .inr ⟨rfl, List.Subset.refl _, ?_⟩⟩
  · have hkeys : ∀ conn : ClientConnection ρ δ, [conn].filterMap ClientConnection.key = conn.key.toList := by
      intro conn
      rcases hkey : conn.key with _ | k <;> simp [hkey]
    rw [List.nil_append] at hcalls
    rw [heldBy, heldBy, hkeys, hkeys, hcalls]
    exact (Transfers.of_settles hsettles).frame _
  · simp [target, h.name, h.scheme]

end Served

theorem served_shutdown (hc : c.NoNull) :
    Served [conn] [] c { putBack conn.request c with needNewConnection := true } := by
  rcases hrequest : conn.request with _ | r
  · refine ⟨rfl, rfl, rfl, rfl, rfl, hc, ⟨[], by simp [putBack], ?_⟩, .inl rfl⟩
    have hkey : conn.key = none := by simp [ClientConnection.key, hrequest]
    refine Transfers.of_perm ?_
    simp [heldBy, hkey, putBack, queue]
  · have hafter : ({ putBack (some r) c with needNewConnection := true } : Client ρ δ).requests =
        (r :: c.queue).map some := by
      have hrequests : c.requests = c.queue.map some := hc
      simpa [putBack] using hrequests
    refine ⟨rfl, rfl, rfl, rfl, rfl, noNull_of_requests hafter, ⟨[], by simp [putBack], ?_⟩, .inl rfl⟩
    have hkey : conn.key = some r.key := by simp [ClientConnection.key, hrequest]
    refine Transfers.of_perm ?_
    rw [heldBy, queue_of_requests hafter]
    simp [heldBy, hkey]

section

variable [RequestClass ρ]

theorem served_setNewRequest (hstate : conn.state = .wantWait)
    (hrequest : conn.request = none) {pre post : List (ClientRequest ρ)} {r : ClientRequest ρ}
    (hqueue : c.requests = (pre ++ r :: post).map some) :
    Returns (conn.setNewRequest r) fun conn' =>
      conn'.Valid ∧ Served [conn] [conn'] c { c with requests := (pre ++ post).map some } := by
  rw [ClientConnection.setNewRequest, if_pos hstate, Returns.some_iff]
  have hbefore : c.queue = pre ++ r :: post := queue_of_requests hqueue
  have hafter : ({ c with requests := (pre ++ post).map some } : Client ρ δ).queue = pre ++ post :=
    queue_of_requests rfl
  refine ⟨⟨by simp, by simp, by simp⟩, rfl, rfl, rfl, rfl, rfl, noNull_of_requests rfl, ⟨[], by simp, ?_⟩, ?_⟩
  · refine Transfers.of_perm ?_
    rw [heldBy, heldBy, hbefore, hafter]
    simp only [List.filterMap_cons, List.filterMap_nil, ClientConnection.key, hrequest, Option.map_none,
      Option.map_some, List.nil_append, List.singleton_append, List.map_append, List.map_cons]
    exact List.perm_middle.symm
  · refine .inr ⟨rfl, ?_, rfl⟩
    rw [hbefore, hafter]
    intro q hq
    rcases List.mem_append.mp hq with hq | hq
    · exact List.mem_append_left _ hq
    · exact List.mem_append_right _ (List.mem_cons_of_mem _ hq)

variable [InflateClass δ]

/-- **One slot.** The loop leaves it after at most as many turns as there are requests, and one. -/
theorem processConnection_spec (p : Option AsyncOperation) (elapsed : UInt32) {n : Nat}
    (hconn : conn.Valid) (hc : c.NoNull) (hn : c.queue.length < n) :
    Returns (processConnection p elapsed n conn c) fun r =>
      Served [conn] r.1.toList c r.2 ∧ ∀ conn' ∈ r.1, conn'.Settled := by
  induction n generalizing conn c with
  | zero => simp at hn
  | succ n ih =>
    rw [processConnection]
    refine Returns.bind (ClientConnection.handleEvent_spec hconn p elapsed) fun w hw => ?_
    have hserved : Served [conn] [w.conn] c (c.record w.calls) := .of_does hw.1 hc
    rcases hw.2 with hsettled | hclose
    · rcases hsettled.resting with hs | hs
      · have haction : w.conn.action = .waitForRequest := by simp [ClientConnection.action, hs]
        have hfree := hsettled.valid.idle hs
        simp only [haction, extractMatchingRequest]
        have hqueue : (c.record w.calls).requests = c.queue.map some := hc
        rw [hqueue]
        rcases takeFirst_cases w.conn.matchRequest c.queue with ⟨-, htake⟩ | ⟨r, pre, post, hsplit, -, -, htake⟩
        · rw [htake]
          have hsame : ({ c.record w.calls with requests := c.queue.map some } : Client ρ δ) = c.record w.calls := by
            rw [← hqueue]
          simp only [Option.bind_eq_bind, Option.bind_some, hsame, Returns.some_iff]
          exact ⟨hserved, by simpa using hsettled⟩
        · rw [htake]
          simp only [Option.bind_eq_bind, Option.bind_some]
          rw [hsplit] at hqueue
          refine Returns.bind (served_setNewRequest hs hfree hqueue) fun conn' hconn' => ?_
          refine (ih hconn'.1 hconn'.2.noNull ?_).mono fun r hr => ⟨(hserved.trans hconn'.2).trans hr.1, hr.2⟩
          rw [queue_of_requests rfl]
          simp [hsplit] at hn ⊢
          omega
      · have haction : w.conn.action = .transferring := by
          rcases hs with hs | hs | hs <;> simp [ClientConnection.action, hs]
        simp only [haction, Returns.some_iff]
        exact ⟨hserved, by simpa using hsettled⟩
    · have haction : w.conn.action = .shutdown := by simp [ClientConnection.action, hclose]
      simp only [haction, ClientConnection.extractRequest, hclose, if_true, Option.bind_eq_bind, Option.bind_some,
        Returns.some_iff]
      exact ⟨hserved.trans (served_shutdown hserved.noNull), by simp⟩

theorem processConnectionList_spec (p : Option AsyncOperation) (elapsed : UInt32) {conns : List (ClientConnection ρ δ)}
    (hconns : ∀ conn ∈ conns, conn.Valid) (hc : c.NoNull) :
    Returns (processConnectionList p elapsed conns c) fun r =>
      Served conns r.1 c r.2 ∧ ∀ conn ∈ r.1, conn.Settled := by
  induction conns generalizing c with
  | nil => exact Returns.some_iff.mpr ⟨.refl [] hc, by simp⟩
  | cons conn conns ih =>
    rw [List.forall_mem_cons] at hconns
    have hlength : c.queue.length < c.requests.length + 1 := by
      have hrequests : c.requests = c.queue.map some := hc
      simp [hrequests]
    rw [processConnectionList]
    refine Returns.bind (processConnection_spec p elapsed hconns.1 hc hlength) fun r hr => ?_
    obtain ⟨kept, c₁⟩ := r
    refine Returns.bind (ih hconns.2 hr.1.noNull) fun r' hr' => ?_
    obtain ⟨conns', c₂⟩ := r'
    have hfirst := hr.1.around [] conns
    have hrest := hr'.1.around kept.toList []
    rw [List.append_nil, List.append_nil] at hrest
    refine Returns.some_iff.mpr ⟨hfirst.trans hrest, ?_⟩
    intro conn' hmem
    rcases List.mem_append.mp hmem with hmem | hmem
    · exact hr.2 conn' (by simpa using hmem)
    · exact hr'.2 conn' hmem

/-- **`processConnections`** returns and leaves settled connections. -/
theorem processConnections_spec (p : Option AsyncOperation) (elapsed : UInt32) (hc : c.NoNull)
    (hconns : ∀ conn ∈ c.connections, conn.Valid) :
    Returns (c.processConnections p elapsed) fun c' =>
      Served c.connections c'.connections c c' ∧ ∀ conn ∈ c'.connections, conn.Settled := by
  refine Returns.bind (processConnectionList_spec p elapsed hconns hc) fun r hr => ?_
  obtain ⟨hserved, hsettled⟩ := hr
  refine Returns.some_iff.mpr ⟨?_, hsettled⟩
  exact ⟨hserved.provider, hserved.cancels, hserved.stop, hserved.requestIdCounter, hserved.created, hserved.noNull,
    hserved.account, hserved.flag⟩

/-! ### Cancelling -/

theorem processCancel_eq (ids : List UInt32) (hconn : conn.Settled) :
    processCancel ids conn =
      some (if conn.isCancelled ids then (none, (ClientConnection.cancel ⟨conn, []⟩).calls) else (some conn, [])) := by
  unfold processCancel
  rw [ClientConnection.foldl_cancelRequest]
  by_cases hids : conn.isCancelled ids = true
  · obtain ⟨r, hr⟩ : ∃ r, conn.request = some r := by
      rcases hr : conn.request with _ | r
      · simp [ClientConnection.isCancelled, hr] at hids
      · exact ⟨r, rfl⟩
    have hclose := ClientConnection.cancel_state (w := ⟨conn, []⟩) hr
    have hnone := ClientConnection.cancel_request ⟨conn, []⟩
    have haction : (ClientConnection.cancel ⟨conn, []⟩).conn.action = .shutdown := by
      simp [ClientConnection.action, hclose]
    simp [hids, ClientConnection.handleEvent_wantClose hclose, haction, ClientConnection.extractRequest, hclose, hnone]
  · have haction : conn.action ≠ .shutdown := by
      rcases hconn.resting with hs | hs | hs | hs <;> simp [ClientConnection.action, hs]
    simp [hids, ClientConnection.handleEvent_settled hconn, haction]

theorem processCancelList_eq (ids : List UInt32) {conns : List (ClientConnection ρ δ)}
    (hconns : ∀ conn ∈ conns, conn.Settled) :
    processCancelList ids conns =
      some (conns.filter fun conn => !conn.isCancelled ids,
        (conns.filter fun conn => conn.isCancelled ids).flatMap fun conn =>
          (ClientConnection.cancel ⟨conn, []⟩).calls) := by
  induction conns with
  | nil => rfl
  | cons conn conns ih =>
    rw [List.forall_mem_cons] at hconns
    rw [processCancelList, processCancel_eq ids hconns.1, ih hconns.2]
    by_cases hids : conn.isCancelled ids = true <;> simp [hids]

/-- The calls that cancelling makes on a list of connections. -/
def cancelCalls (conns : List (ClientConnection ρ δ)) : Calls :=
  conns.flatMap fun conn => (ClientConnection.cancel ⟨conn, []⟩).calls

/-- **`processCancels`** returns, and this is what it leaves. -/
theorem processCancels_eq (hconns : ∀ conn ∈ c.connections, conn.Settled) :
    c.processCancels = some { c with
      connections := c.connections.filter fun conn => !conn.isCancelled c.cancels
      cancels := []
      calls := c.calls ++ cancelCalls (c.connections.filter fun conn => conn.isCancelled c.cancels) } := by
  unfold processCancels
  split_ifs with hnil
  · have hnone : ∀ conn : ClientConnection ρ δ, conn.isCancelled [] = false := by
      intro conn
      simp [ClientConnection.isCancelled]
    simp only [hnil, hnone, Bool.not_false, List.filter_true, List.filter_false, cancelCalls, List.flatMap_nil,
      List.append_nil]
    rw [← hnil]
  · rw [processCancelList_eq _ hconns]
    rfl

end

/-! ### Accounts of the whole client -/

theorem transfers_cancelCalls (conns : List (ClientConnection ρ δ)) :
    Transfers (conns.filterMap ClientConnection.key) (cancelCalls conns) [] := by
  induction conns with
  | nil => exact .refl []
  | cons conn conns ih =>
    obtain ⟨calls, hcalls, hsettles⟩ := (ClientConnection.does_cancel ⟨conn, []⟩).calls
    rw [List.nil_append] at hcalls
    have hnone : (ClientConnection.cancel ⟨conn, []⟩).conn.key = none := by
      simp [ClientConnection.key, ClientConnection.cancel_request]
    rw [hnone, ← hcalls] at hsettles
    have hkeys : (conn :: conns).filterMap ClientConnection.key =
        conn.key.toList ++ conns.filterMap ClientConnection.key := by
      rcases hkey : conn.key with _ | k <;> simp [hkey]
    rw [hkeys, cancelCalls, List.flatMap_cons]
    exact (Transfers.of_settles hsettles).append ih

/-- Nobody is added, and every request is accounted for. -/
structure Accounts (c c' : Client ρ δ) : Prop where
  created : c'.created = c.created
  requestIdCounter : c'.requestIdCounter = c.requestIdCounter
  account : ∃ calls, c'.calls = c.calls ++ calls ∧ Transfers c.held calls c'.held

variable {c c' : Client ρ δ}

theorem Accounts.of_eq (hcreated : c'.created = c.created)
    (hcounter : c'.requestIdCounter = c.requestIdCounter) (hcalls : c'.calls = c.calls) (hheld : c'.held = c.held) :
    Accounts c c' :=
  ⟨hcreated, hcounter, [], by rw [hcalls, List.append_nil], hheld ▸ .refl _⟩

theorem Served.accounts (h : Served c.connections c'.connections c c') : Accounts c c' :=
  ⟨h.created, h.requestIdCounter, h.account⟩

theorem held_addNewConnection (name : Name) (scheme : Bytes) (c : Client ρ δ) :
    (c.addNewConnection name scheme).held = c.held := by
  simp [held, heldBy, addNewConnection, ClientConnection.create, ClientConnection.key, queue]

theorem apply_key (transfer : Transfer) (conn : ClientConnection ρ δ) : (transfer.apply conn).key = conn.key := by
  cases transfer <;> rfl

theorem apply_settled (transfer : Transfer) (h : conn.Settled) :
    (transfer.apply conn).Settled := by
  have hvalid : (transfer.apply conn).Valid := by
    cases transfer <;> exact ⟨h.valid.idle, h.valid.request, h.valid.sink⟩
  cases transfer <;> exact ⟨hvalid, h.resting, h.idleTime⟩

theorem held_transferred (connection : Nat) (transfer : Transfer) (c : Client ρ δ) :
    (c.transferred connection transfer).held = c.held := by
  rw [held, heldBy, transferred, List.filterMap_map]
  refine congrArg (· ++ _) (List.filterMap_congr fun conn _ => ?_)
  rw [Function.comp_apply]
  split_ifs
  · exact apply_key transfer conn
  · rfl

theorem accounts_cancelled (c : Client ρ δ) (ids : List UInt32) :
    Accounts c { c with
      connections := c.connections.filter fun conn => !conn.isCancelled ids
      cancels := []
      calls := c.calls ++ cancelCalls (c.connections.filter fun conn => conn.isCancelled ids) } := by
  refine ⟨rfl, rfl, _, rfl, ?_⟩
  have hparts := (transfers_cancelCalls (c.connections.filter fun conn => conn.isCancelled ids)).frame
    (heldBy (c.connections.filter fun conn => !conn.isCancelled ids) c)
  refine hparts.perm ?_ (List.Perm.refl _)
  rw [held, heldBy, heldBy, ← List.append_assoc, ← List.filterMap_append]
  exact ((List.filter_append_perm _ _).symm.filterMap _).append_right _

theorem held_cancelEverything (c : Client ρ δ) : c.cancelEverything.held = [] := by
  simp [held, heldBy, cancelEverything, queue, ClientConnection.key, ClientConnection.cancel_request,
    List.filterMap_map, Function.comp_def]

theorem accounts_cancelEverything (c : Client ρ δ) : Accounts c c.cancelEverything := by
  refine ⟨rfl, rfl, c.queue.map (failure .cancelled operationCancelled) ++ cancelCalls c.connections, ?_, ?_⟩
  · simp [cancelEverything, cancelCalls, queue, List.flatMap_map]
  · rw [held_cancelEverything]
    have hqueue : Transfers (c.queue.map ClientRequest.key) (c.queue.map (failure .cancelled operationCancelled)) [] :=
      Transfers.finish c.queue rfl
    exact (hqueue.append (transfers_cancelCalls c.connections)).perm List.perm_append_comm (List.Perm.refl _)

variable {deferred : Bool}

/-- A request is cancelled by the worker, or it is taken from the queue and its callback is called. -/
theorem cancelRequest_cases {id : UInt32} (h : c.cancelRequest id = some (deferred, c')) :
    c' = { c with cancels := c.cancels ++ [id] } ∨
      ∃ r pre post, c.requests = pre ++ some r :: post ∧
        c' = { c with requests := pre ++ post }.record [failure .cancelled operationCancelled r] := by
  unfold cancelRequest at h
  rcases htake : takeFirst (fun r => r.requestId = id) c.requests with _ | ⟨found, rest⟩ <;> rw [htake] at h
  · cases h
  · rcases takeFirst_some htake with ⟨rfl, rfl⟩ | ⟨r, pre, post, rfl, -, hsplit, rfl⟩ <;> cases h
    · exact .inl rfl
    · exact .inr ⟨r, pre, post, hsplit, rfl⟩

theorem accounts_cancelRequest {id : UInt32} (h : c.cancelRequest id = some (deferred, c')) : Accounts c c' := by
  obtain rfl | ⟨r, pre, post, hsplit, rfl⟩ := cancelRequest_cases h
  · exact .of_eq rfl rfl rfl rfl
  · refine ⟨rfl, rfl, [failure .cancelled operationCancelled r], rfl, ?_⟩
    have hend : Transfers [r.key] [failure .cancelled operationCancelled r] [] := Transfers.finish [r] rfl
    refine (hend.frame (heldBy c.connections { c with requests := pre ++ post })).perm ?_ (List.Perm.refl _)
    have hqueue : c.queue = pre.filterMap (fun x => x) ++ r :: post.filterMap (fun x => x) := by
      simp [queue, hsplit]
    have hrest : ({ c with requests := pre ++ post } : Client ρ δ).queue =
        pre.filterMap (fun x => x) ++ post.filterMap (fun x => x) := by
      simp [queue]
    rw [held, heldBy, heldBy, hqueue, hrest, List.map_append, List.map_cons, List.map_append, List.singleton_append,
      ← List.append_assoc, ← List.append_assoc]
    exact List.perm_middle

theorem noNull_cancelRequest {id : UInt32}
    (h : c.cancelRequest id = some (deferred, c')) (hnoNull : c.NoNull) : c'.NoNull := by
  rw [noNull_iff] at hnoNull ⊢
  obtain rfl | ⟨r, pre, post, hsplit, rfl⟩ := cancelRequest_cases h
  · exact hnoNull
  · rw [hsplit] at hnoNull
    show none ∉ pre ++ post
    simpa using hnoNull

theorem cancelRequest_frame {id : UInt32} (h : c.cancelRequest id = some (deferred, c')) :
    c'.connections = c.connections ∧ c'.needNewConnection = c.needNewConnection ∧ c'.provider = c.provider ∧
      c'.queue ⊆ c.queue := by
  obtain rfl | ⟨r, pre, post, hsplit, rfl⟩ := cancelRequest_cases h
  · exact ⟨rfl, rfl, rfl, List.Subset.refl _⟩
  · refine ⟨rfl, rfl, rfl, ?_⟩
    rw [queue, queue, hsplit]
    exact List.filterMap_subset _ (List.append_subset.mpr ⟨List.subset_append_left _ _, by simp⟩)

theorem cancelRequestsByTarget_frame [RequestClass ρ] {name : Name} {scheme : Bytes}
    {reason : FailureReason} {message : Bytes} (h : c.cancelRequestsByTarget name scheme reason message = some c') :
    c'.connections = c.connections ∧ c'.needNewConnection = c.needNewConnection ∧ c'.provider = c.provider ∧
      c'.stop = c.stop := by
  unfold cancelRequestsByTarget at h
  obtain ⟨r, -, hr⟩ := Option.bind_eq_some_iff.mp h
  cases hr
  exact ⟨rfl, rfl, rfl, rfl⟩

theorem accounts_cancelRequestsByTarget [RequestClass ρ] {name : Name} {scheme : Bytes}
    {reason : FailureReason} {message : Bytes} (h : c.cancelRequestsByTarget name scheme reason message = some c') :
    Accounts c c' ∧ c'.NoNull ∧ c'.queue ⊆ c.queue := by
  unfold cancelRequestsByTarget at h
  rcases htargets : cancelTargets name scheme reason message c.requests with _ | ⟨calls, rest⟩ <;> rw [htargets] at h
  · cases h
  · cases h
    have hrequests : c.requests = c.queue.map some := noNull_iff.mpr (noNull_of_cancelTargets htargets)
    rw [hrequests, cancelTargets_map] at htargets
    cases htargets
    refine ⟨⟨rfl, rfl, (c.queue.filter (isTarget name scheme)).map (failure reason message), rfl, ?_⟩,
      noNull_of_requests rfl, ?_⟩
    · have hend : Transfers ((c.queue.filter (isTarget name scheme)).map ClientRequest.key)
          ((c.queue.filter (isTarget name scheme)).map (failure reason message)) [] := Transfers.finish _ rfl
      refine (hend.frame (heldBy c.connections { c with
        requests := (c.queue.filter fun r => !isTarget name scheme r).map some })).perm ?_ (List.Perm.refl _)
      have hrest : ({ c with requests := (c.queue.filter fun r => !isTarget name scheme r).map some } :
          Client ρ δ).queue = c.queue.filter fun r => !isTarget name scheme r := queue_of_requests rfl
      rw [held, heldBy, heldBy, hrest, ← List.append_assoc]
      refine (List.Perm.append_left _ ((List.filter_append_perm (isTarget name scheme) c.queue).symm.map _)).trans ?_
      rw [List.map_append, ← List.append_assoc]
      exact List.perm_append_comm.append_right _
    · rw [queue_of_requests rfl]
      exact List.filter_subset_self _

end Client

end Afl.Net.Http
