import Afl.Net.Http.ClientCallbacks

/-!
# Outcomes of requests

Each turn of the worker's loops keeps the invariant `Kept`, and so does every orderly step. From it follows that a
request has one outcome, however its callbacks call the client, as long as none of them cancels a request that is not
behind the one being cancelled in the queue.
-/

namespace Afl.Net.Http

open Client

namespace Reentrant

variable {ρ δ : Type}

/-! ### Accounts of a turn -/

variable {i : Nat} {conn : ClientConnection ρ δ}

theorem heldBy_slot {conns : List (ClientConnection ρ δ)} (hconn : conns[i]? = some conn) (c : Client ρ δ) :
    (heldBy conns c).Perm (conn.key.toList ++ heldBy (conns.eraseIdx i) c) := by
  obtain ⟨hlt, rfl⟩ := List.getElem?_eq_some_iff.mp hconn
  have hperm := ((List.getElem_cons_eraseIdx_perm hlt).filterMap ClientConnection.key).symm
  rw [heldBy, heldBy, ← List.append_assoc]
  refine hperm.append_right _ |>.trans ?_
  rcases hkey : conns[i].key with _ | k <;> simp [hkey]

theorem heldBy_set {conns : List (ClientConnection ρ δ)} (hi : i < conns.length)
    (conn : ClientConnection ρ δ) (c : Client ρ δ) :
    (heldBy (conns.set i conn) c).Perm (conn.key.toList ++ heldBy (conns.eraseIdx i) c) := by
  have hslot := heldBy_slot (List.getElem?_set_self hi : (conns.set i conn)[i]? = some conn) c
  rwa [List.eraseIdx_set_eq] at hslot

variable {c c' : Client ρ δ}

theorem transfers_set {conn conn' : ClientConnection ρ δ} {calls : Calls}
    (hconn : c.connections[i]? = some conn) (hsettles : Settles conn.key calls conn'.key)
    (hconns : c'.connections = c.connections.set i conn') (hrequests : c'.requests = c.requests) :
    Transfers c.held calls c'.held := by
  have hlt := (List.getElem?_eq_some_iff.mp hconn).1
  refine ((Transfers.of_settles hsettles).frame (heldBy (c.connections.eraseIdx i) c)).perm (heldBy_slot hconn c) ?_
  have hqueue : c'.queue = c.queue := by rw [queue, queue, hrequests]
  have hset := heldBy_set hlt conn' c
  rw [heldBy] at hset
  rwa [held, heldBy, hconns, hqueue]

theorem transfers_erase {calls : Calls} (hconn : c.connections[i]? = some conn) (hsettles : Settles conn.key calls none)
    (hconns : c'.connections = c.connections.eraseIdx i) (hrequests : c'.requests = c.requests) :
    Transfers c.held calls c'.held := by
  refine ((Transfers.of_settles hsettles).frame (heldBy (c.connections.eraseIdx i) c)).perm (heldBy_slot hconn c) ?_
  have hqueue : c'.queue = c.queue := by rw [queue, queue, hrequests]
  rw [held, heldBy, hconns, hqueue]
  exact List.Perm.refl _

theorem transfers_assign {conn conn' : ClientConnection ρ δ} {r : ClientRequest ρ}
    {pre post : List (Option (ClientRequest ρ))} (hconn : c.connections[i]? = some conn) (hkey : conn.key = none)
    (hkey' : conn'.key = some r.key) (hconns : c'.connections = c.connections.set i conn')
    (hrequests : c.requests = pre ++ some r :: post) (hrequests' : c'.requests = pre ++ post) :
    Transfers c.held [] c'.held := by
  have hlt := (List.getElem?_eq_some_iff.mp hconn).1
  have hbefore := heldBy_slot hconn c
  have hafter := heldBy_set hlt conn' c'
  rw [hkey] at hbefore
  rw [hkey', ← hconns] at hafter
  have hqueue : c.queue.Perm (r :: c'.queue) := by
    rw [queue, queue, hrequests, hrequests']
    exact (List.perm_middle.filterMap id)
  refine Transfers.of_perm (hafter.trans (List.Perm.symm (hbefore.trans ?_)))
  rw [Option.toList_none, List.nil_append, heldBy, heldBy]
  exact ((hqueue.map ClientRequest.key).append_left _).trans List.perm_middle

theorem transfers_close (hconn : c.connections[i]? = some conn) (hconns : c'.connections = c.connections.eraseIdx i)
    (hrequests : c'.requests = (putBack conn.request c).requests) : Transfers c.held [] c'.held := by
  refine Transfers.of_perm ((heldBy_slot hconn c).trans ?_).symm
  have hqueue : c'.queue.map ClientRequest.key = conn.key.toList ++ c.queue.map ClientRequest.key := by
    rw [queue, hrequests, ClientConnection.key]
    rcases conn.request with _ | r <;> rfl
  rw [held, heldBy, heldBy, hconns, hqueue, ← List.append_assoc, ← List.append_assoc]
  exact List.perm_append_comm.append_right _

theorem transfers_request {r : ClientRequest ρ}
    (hrequest : c.requests[i]? = some (some r)) (hconns : c'.connections = c.connections)
    (hrequests : c'.requests = c.requests.set i none) :
    Transfers c.held [failure .cancelled operationCancelled r] c'.held := by
  obtain ⟨hlt, hget⟩ := List.getElem?_eq_some_iff.mp hrequest
  have hend : Transfers [r.key] [failure .cancelled operationCancelled r] [] := Transfers.finish [r] rfl
  refine (hend.frame c'.held).perm ?_ (List.Perm.refl _)
  have hqueue : c.queue.Perm (r :: c'.queue) := by
    have hbefore := (List.getElem_cons_eraseIdx_perm hlt).symm.filterMap id
    have hafter := (List.set_perm_cons_eraseIdx hlt none).filterMap id
    rw [hget] at hbefore
    rw [queue, queue, hrequests]
    exact hbefore.trans (hafter.symm.cons r)
  rw [held, held, heldBy, heldBy, hconns]
  exact ((hqueue.map ClientRequest.key).append_left _).trans List.perm_middle

theorem putBack_frame (req : Option (ClientRequest ρ)) (c : Client ρ δ) :
    (putBack req c).calls = c.calls ∧ (putBack req c).created = c.created ∧ (putBack req c).stop = c.stop := by
  cases req <;> exact ⟨rfl, rfl, rfl⟩

theorem none_of_take_succ {α : Type} {l : List (Option α)} (hl : ∀ x ∈ l.take i, x = none)
    (hi : l[i]? = some none) : ∀ x ∈ l.take (i + 1), x = none := by
  intro x hx
  rw [List.take_add_one, hi, List.mem_append] at hx
  exact hx.elim (hl x) fun hx => by simpa using hx

theorem none_of_take_set {α : Type} {l : List (Option α)} (hl : ∀ x ∈ l.take i, x = none)
    (hi : i < l.length) : ∀ x ∈ (l.set i none).take (i + 1), x = none := by
  refine none_of_take_succ ?_ (by simp [hi])
  rwa [List.take_set_of_le (Nat.le_refl i)]

theorem valid_cancel (hconn : conn.Valid) :
    (ClientConnection.cancel ⟨conn, []⟩).conn.Valid := by
  rcases hrequest : conn.request with _ | r
  · rw [ClientConnection.cancel_of_none hrequest]
    exact hconn
  · exact .of_wantClose (ClientConnection.cancel_state (w := ⟨conn, []⟩) hrequest)

/-! ### The turns of the loops -/

variable {p : Option AsyncOperation}

variable {elapsed : UInt32}

namespace Kept

variable {s : Reentrant ρ δ}

theorem not_returned (h : Kept s) {turn : Turn} (hturn : s.turn = some turn) : s.system.location ≠ .returned := by
  have hloop := h.loop turn hturn
  cases turn with
  | serving => obtain hl | ⟨p, elapsed, hl⟩ := hloop <;> simp [hl]
  | served => obtain hl | ⟨p, elapsed, hl⟩ := hloop <;> simp [hl]
  | cancelling =>
    have hl : s.system.location = .cancels := hloop
    simp [hl]
  | requests => simp [hloop.1]
  | connections => simp [hloop.1]

/-- **A turn** that accounts for the requests and goes on with another one. -/
theorem turned (h : Kept s) (hs : s.suspended = []) {turn next : Turn} (hturn : s.turn = some turn) {c : Client ρ δ}
    {calls : Calls} (hcalls : c.calls = s.client.calls ++ calls) (hcreated : c.created = s.client.created)
    (hstop : c.stop = s.client.stop) (htransfers : Transfers s.client.held calls c.held)
    (hvalid : ∀ conn ∈ c.connections, conn.Valid) (hloop : ((s.withClient c).goOn next).InLoop next) :
    Kept ((s.withClient c).goOn next) := by
  have hreturned := h.not_returned hturn
  have hmarks : ((s.withClient c).goOn next).marks = [] := marks_of_nil hs
  refine ⟨?_, hvalid, ?_, ?_, fun hl => hstop.trans (h.stopped hl), ?_, fun hl => absurd hl hreturned⟩
  · have hrest : ((s.withClient c).goOn next).rest = c := rest_of_nil hs
    refine h.account.of_transfers hcreated hcalls ?_
    rwa [rest_of_nil hs, hrest]
  · rw [hmarks]
    exact .nil
  · simp [hmarks]
  · intro turn' hturn'
    cases hturn'
    exact hloop

theorem goOn (h : Kept s) (hs : s.suspended = []) {turn next : Turn} (hturn : s.turn = some turn)
    (hloop : (s.goOn next).InLoop next) : Kept (s.goOn next) :=
  h.turned hs hturn (List.append_nil s.client.calls).symm rfl rfl (.refl _) h.valid hloop

theorem leave (h : Kept s) {location : Location}
    (hstopped : location = .shutdown → s.client.stop = true)
    (hreturned : location = .returned → s.client.stop = true ∧ s.Emptied ∧ ∀ k ∈ s.keys, k = none) :
    Kept (s.leave location) :=
  ⟨h.account, h.valid, h.decreasing, h.inside, fun hl => hl.elim hstopped fun hl => (hreturned hl).1,
    by simp [Reentrant.leave], fun hl => (hreturned hl).2⟩

theorem valid_set (h : Kept s) (hconn : conn.Valid) :
    ∀ conn' ∈ s.client.connections.set i conn, conn'.Valid := by
  intro conn' hmem
  rcases List.mem_or_eq_of_mem_set hmem with hmem | rfl
  · exact h.valid conn' hmem
  · exact hconn

theorem valid_eraseIdx (h : Kept s) (i : Nat) : ∀ conn ∈ s.client.connections.eraseIdx i, conn.Valid :=
  fun conn hmem => h.valid conn (List.mem_of_mem_eraseIdx hmem)

theorem close (h : Kept s) (hs : s.suspended = []) (hturn : s.turn = some (.served p elapsed i))
    (hconn : s.client.connections[i]? = some conn) (hstate : conn.state = .wantClose) :
    Kept (s.close p elapsed i conn) := by
  have hloop := h.loop _ hturn
  unfold Reentrant.close
  simp only [ClientConnection.extractRequest, if_pos hstate]
  obtain ⟨hcalls, hcreated, hstop⟩ := putBack_frame conn.request s.client
  exact h.turned hs hturn (hcalls.trans (List.append_nil _).symm) hcreated hstop (transfers_close hconn rfl rfl)
    (h.valid_eraseIdx i) hloop

theorem cancelsDone (h : Kept s) : Kept s.cancelsDone := by
  have hquiet : Kept { s with system := { s.system with
      client := { s.client with cancels := [] }, wakeActive := false } } :=
    h.quiet (.of_eq rfl rfl rfl rfl rfl) rfl rfl
  exact hquiet.leave (by simp) (by simp)

theorem requestTurn (h : Kept s) (hs : s.suspended = []) (hturn : s.turn = some (.requests i)) :
    Kept (s.requestTurn i) := by
  obtain ⟨hl, hcleared, -⟩ := h.loop _ hturn
  have hmarks := marks_of_nil hs
  unfold Reentrant.requestTurn
  rcases hrequest : s.client.requests[i]? with _ | _ | r
  · rw [List.getElem?_eq_none_iff] at hrequest
    refine h.goOn hs hturn ⟨hl, ⟨?_, fun _ => hmarks⟩, by simp⟩
    intro x hx
    rw [List.take_of_length_le hrequest] at hcleared
    exact hcleared x (List.mem_of_mem_take hx)
  · exact h.goOn hs hturn ⟨hl, none_of_take_succ hcleared hrequest, fun _ => hmarks⟩
  · have hlt := (List.getElem?_eq_some_iff.mp hrequest).1
    exact h.turned hs hturn rfl rfl rfl (transfers_request hrequest rfl rfl) h.valid
      ⟨hl, none_of_take_set hcleared hlt, fun _ => hmarks⟩

theorem connectionTurn (h : Kept s) (hs : s.suspended = []) (hturn : s.turn = some (.connections i)) :
    Kept (s.connectionTurn i) := by
  obtain ⟨hl, hemptied, hkeys⟩ := h.loop _ hturn
  unfold Reentrant.connectionTurn
  rcases hconn : s.client.connections[i]? with _ | conn
  · rw [List.getElem?_eq_none_iff] at hconn
    refine h.leave (by simp) fun _ => ⟨h.stopped (.inl hl), hemptied, ?_⟩
    rwa [List.take_of_length_le (by simpa [keys] using hconn)] at hkeys
  · obtain ⟨calls, hcalls, hsettles⟩ := (ClientConnection.does_cancel ⟨conn, []⟩).calls
    rw [List.nil_append] at hcalls
    refine h.turned hs hturn rfl rfl rfl (transfers_set hconn (hcalls ▸ hsettles) rfl rfl)
      (h.valid_set (valid_cancel (h.valid conn (List.mem_of_getElem? hconn)))) ⟨hl, hemptied, ?_⟩
    have hlt := (List.getElem?_eq_some_iff.mp hconn).1
    have hnone : (ClientConnection.cancel ⟨conn, []⟩).conn.key = none := by
      rw [ClientConnection.key, ClientConnection.cancel_request]
      rfl
    show ∀ k ∈ ((s.client.connections.set i _).map ClientConnection.key).take (i + 1), k = none
    rw [List.map_set, hnone]
    exact none_of_take_set hkeys (by simpa using hlt)

theorem create : Kept (Reentrant.create : Reentrant ρ δ) := by
  refine ⟨fun object => ?_, ?_, ?_, ?_, ?_, ?_, ?_⟩ <;>
    simp [Reentrant.create, System.create, Client.create, client, marks, rest, held, heldBy, queue, eraseMarks]

end Kept

section

variable [RequestClass ρ]

variable {s' : Reentrant ρ δ}

namespace Kept

variable {s : Reentrant ρ δ}

theorem assign (h : Kept s) (hs : s.suspended = []) (hturn : s.turn = some (.served p elapsed i))
    (hconn : s.client.connections[i]? = some conn) (hstate : conn.state = .wantWait) :
    Kept (s.assign p elapsed i conn) := by
  have hloop := h.loop _ hturn
  unfold Reentrant.assign
  rcases hextract : s.client.extractMatchingRequest conn with _ | ⟨_ | req, c⟩
  · exact h.fail
  · exact h.goOn hs hturn hloop
  · simp only [ClientConnection.setNewRequest, if_pos hstate]
    unfold extractMatchingRequest at hextract
    rcases htake : takeFirst conn.matchRequest s.client.requests with _ | ⟨found, requests⟩ <;>
      rw [htake] at hextract <;> cases hextract
    obtain ⟨hnone, -⟩ | ⟨r, pre, post, hr, -, hsplit, hrest⟩ := takeFirst_some htake
    · cases hnone
    · cases hr
      have hkey : conn.key = none := by
        simp [ClientConnection.key, (h.valid conn (List.mem_of_getElem? hconn)).idle hstate]
      refine h.turned hs hturn (List.append_nil _).symm rfl rfl ?_
        (h.valid_set ⟨by simp, by simp, by simp⟩) hloop
      exact transfers_assign hconn hkey rfl rfl hsplit hrest

theorem dispatch (h : Kept s) (hs : s.suspended = [])
    (hturn : s.turn = some (.served p elapsed i)) (hstep : s.dispatch p elapsed i = some s') :
    Kept s' := by
  unfold Reentrant.dispatch at hstep
  obtain ⟨conn, hconn, hstep⟩ := Option.bind_eq_some_iff.mp hstep
  by_cases hclose : conn.state = .wantClose
  · rw [show conn.action = .shutdown by simp [ClientConnection.action, hclose]] at hstep
    cases hstep
    exact h.close hs hturn hconn hclose
  · by_cases hwait : conn.state = .wantWait
    · rw [show conn.action = .waitForRequest by simp [ClientConnection.action, hwait]] at hstep
      cases hstep
      exact h.assign hs hturn hconn hwait
    · rw [show conn.action = .transferring by simp [ClientConnection.action, hclose, hwait]] at hstep
      cases hstep
      exact h.goOn hs hturn (h.loop _ hturn)

end Kept

variable [InflateClass δ]

/-- A turn of `processCancels` settles the request, and keeps it if it keeps the connection. -/
theorem processCancel_settles {ids : List UInt32} (hconn : conn.Valid)
    {kept : Option (ClientConnection ρ δ)} {calls : Calls} (h : processCancel ids conn = some (kept, calls)) :
    Settles conn.key calls (kept.bind ClientConnection.key) ∧ ∀ conn' ∈ kept, conn'.Valid := by
  unfold processCancel at h
  rw [ClientConnection.foldl_cancelRequest] at h
  obtain ⟨w, hw⟩ : ∃ w : ClientConnection.Work ρ δ, w =
      if conn.isCancelled ids then ClientConnection.cancel ⟨conn, []⟩ else ⟨conn, []⟩ := ⟨_, rfl⟩
  have hdoes : ClientConnection.Does ⟨conn, []⟩ w ∧ w.conn.Valid := by
    rw [hw]
    split_ifs
    · exact ⟨ClientConnection.does_cancel _, valid_cancel hconn⟩
    · exact ⟨.refl _, hconn⟩
  obtain ⟨w', hw', hdoes', hafter⟩ := ClientConnection.handleEvent_spec hdoes.2 none 0
  obtain ⟨calls₁, hcalls₁, hsettles₁⟩ := hdoes.1.calls
  obtain ⟨calls₂, hcalls₂, hsettles₂⟩ := hdoes'.calls
  rw [List.nil_append] at hcalls₁ hcalls₂
  have hsettles : Settles conn.key (w.calls ++ w'.calls) w'.conn.key := by
    rw [hcalls₁, hcalls₂]
    exact hsettles₁.trans hsettles₂
  simp only [← hw, hw', Option.bind_eq_bind, Option.bind_some] at h
  split_ifs at h with haction
  · have hclose : w'.conn.state = .wantClose := by
      by_contra hclose
      rw [ClientConnection.action, if_neg hclose] at haction
      split_ifs at haction
    rcases hrequest : w'.conn.request with _ | r <;>
      simp [ClientConnection.extractRequest, hclose, hrequest] at h
    obtain ⟨rfl, rfl⟩ := h
    rw [show w'.conn.key = none by simp [ClientConnection.key, hrequest]] at hsettles
    exact ⟨hsettles, by simp⟩
  · cases h
    refine ⟨hsettles, ?_⟩
    intro conn' hconn'
    cases hconn'
    exact hafter.elim ClientConnection.Settled.valid ClientConnection.Valid.of_wantClose

namespace Kept

variable {s : Reentrant ρ δ}

theorem serve (h : Kept s) (hs : s.suspended = [])
    (hturn : s.turn = some (.serving p elapsed i)) : Kept (s.serve p elapsed i) := by
  have hloop := h.loop _ hturn
  unfold Reentrant.serve
  rcases hconn : s.client.connections[i]? with _ | conn
  · refine h.leave ?_ ?_ <;> split_ifs <;> simp
  · have hvalid := h.valid conn (List.mem_of_getElem? hconn)
    obtain ⟨w, hw, hdoes, hafter⟩ := ClientConnection.handleEvent_spec hvalid p elapsed
    obtain ⟨calls, hcalls, hsettles⟩ := hdoes.calls
    rw [List.nil_append] at hcalls
    simp only [hw]
    refine h.turned hs hturn rfl rfl rfl (transfers_set hconn (hcalls ▸ hsettles) rfl rfl) ?_ hloop
    exact h.valid_set (hafter.elim ClientConnection.Settled.valid ClientConnection.Valid.of_wantClose)

theorem cancelTurn (h : Kept s) (hs : s.suspended = []) (hturn : s.turn = some (.cancelling i)) :
    Kept (s.cancelTurn i) := by
  have hloop := h.loop _ hturn
  unfold Reentrant.cancelTurn
  rcases hconn : s.client.connections[i]? with _ | conn
  · exact h.cancelsDone
  · simp only
    rcases hcancel : processCancel s.client.cancels conn with _ | ⟨_ | conn', calls⟩
    · exact h.fail
    · obtain ⟨hsettles, -⟩ := processCancel_settles (h.valid conn (List.mem_of_getElem? hconn)) hcancel
      exact h.turned hs hturn rfl rfl rfl (transfers_erase hconn hsettles rfl rfl) (h.valid_eraseIdx i) hloop
    · obtain ⟨hsettles, hvalid⟩ := processCancel_settles (h.valid conn (List.mem_of_getElem? hconn)) hcancel
      exact h.turned hs hturn rfl rfl rfl (transfers_set hconn hsettles rfl rfl) (h.valid_set (hvalid conn' rfl)) hloop

theorem nextTurn (h : Kept s) (hstep : s.nextTurn = some s') : Kept s' := by
  unfold Reentrant.nextTurn at hstep
  split_ifs at hstep with hs
  rcases hturn : s.turn with _ | turn <;> rw [hturn] at hstep
  · cases hstep
  · cases turn with
    | serving p elapsed i =>
      cases hstep
      exact h.serve hs hturn
    | served p elapsed i => exact h.dispatch hs hturn hstep
    | cancelling i =>
      cases hstep
      exact h.cancelTurn hs hturn
    | requests i =>
      cases hstep
      exact h.requestTurn hs hturn
    | connections i =>
      cases hstep
      exact h.connectionTurn hs hturn

/-! ### Runs -/

theorem act (h : Kept s) {a : Act ρ} (ha : s.Orderly (.act a)) (hstep : s.act a = some s') :
    Kept s' := by
  cases a with
  | addNewRequest data =>
    cases hstep
    exact h.addNewRequest data
  | cancelRequest id =>
    cases hstep
    exact h.cancelRequest ha
  | cancelRequestsByTarget name scheme reason message =>
    cases hstep
    refine h.cancelTargets ?_ ?_
    · rw [List.drop_zero]
      exact ha
    · intro q hq
      rw [List.drop_zero] at hq
      exact h.unstarted_of_head hq
  | sweep => exact h.enter hstep fun t ht _ => .inl ht
  | processConnections =>
    rw [Reentrant.act] at hstep
    split at hstep
    · rename_i p elapsed hl
      exact h.enter hstep fun t ht _ => .inr ⟨p, elapsed, ht⟩
    · cases hstep
  | processCancels =>
    rw [Reentrant.act] at hstep
    obtain ⟨t, ht, hstep⟩ := Option.bind_eq_some_iff.mp hstep
    have hkept := h.enter ht fun t ht _ => ht
    cases hstep
    split_ifs
    · exact hkept.cancelsDone
    · exact hkept
  | cancelEverything => exact h.enter hstep fun t ht hmarks => ⟨ht, by simp [Cleared]⟩
  | requestNewConnection =>
    rw [Reentrant.act] at hstep
    split_ifs at hstep
    exact h.passive (a := .requestNewConnection) trivial hstep
  | addNewConnection name scheme => exact h.passive (a := .addNewConnection name scheme) trivial hstep
  | setNewConnectionProvider => exact h.passive (a := .setNewConnectionProvider) trivial hstep
  | stop => exact h.passive (a := .stop) trivial hstep
  | getUnsatisfiedTarget => exact h.passive (a := .getUnsatisfiedTarget) trivial hstep
  | post => exact h.passive (a := .post) trivial hstep
  | waitAsync => exact h.passive (a := .waitAsync) trivial hstep
  | wake => exact h.passive (a := .wake) trivial hstep
  | finish connection transfer elapsed => exact h.passive (a := .finish connection transfer elapsed) trivial hstep
  | timeout elapsed => exact h.passive (a := .timeout elapsed) trivial hstep
  | checkStop => exact h.passive (a := .checkStop) trivial hstep

/-- **The invariant is kept** by every orderly step. -/
theorem step (h : Kept s) {a : Progress ρ} (ha : s.Orderly a) (hstep : s.step a = some s') :
    Kept s' := by
  unfold Reentrant.step at hstep
  split_ifs at hstep
  cases a with
  | act a => exact h.act ha hstep
  | turn => exact h.nextTurn hstep
  | ret => exact h.ret hstep

end Kept

end

/-- The client is stopped, and `run()` returns. -/
def stopped : List (Progress GetRequest) :=
  [.act .stop, .act .post, .act .requestNewConnection, .act .waitAsync, .act .sweep, .turn, .act .wake, .act .checkStop,
    .act .cancelEverything, .turn, .turn, .turn]

end Reentrant

end Afl.Net.Http
