import Afl.Net.Http.ClientRuns

/-!
# Cancelling requests of the HTTP client

`cancelRequest` looks for a request in the queue and leaves it to the worker if it is not there; `processCancels` then
looks for it in the connections. A connection that shuts down between the two may hand the request back to the queue,
and then neither finds it. `CancelledAt` names the step of `processCancels` that follows a call of `cancelRequest`;
`cancels_kept_iff` says when that step ends the request.
-/

namespace Afl.Net.Http

open Client

variable {ρ δ : Type}

/-- The request has had its one final callback and nobody holds it. -/
def Gone (object : Nat) (c : Client ρ δ) : Prop :=
  outcomes object c.calls = 1 ∧ object ∉ c.held.map Prod.fst

def callsOn (object : Nat) (calls : Calls) : Calls := calls.filter fun c => c.1 = object

def isProcessCancels : Act ρ → Bool
  | .processCancels => true
  | _ => false

/-- In a run, `cancelRequest` was called for a request that had no final callback yet; `p` is the next step of
`processCancels`, and `rest` is what follows it. -/
def CancelledAt (run : List (Run.Taken (System ρ δ) (Act ρ))) (object : Nat) (p : Run.Taken (System ρ δ) (Act ρ))
    (rest : List (Run.Taken (System ρ δ) (Act ρ))) : Prop :=
  ∃ t between, t :: between <:+ run ∧ t.act = .cancelRequest (requestIdOf object) ∧
    object < t.pre.client.created ∧ outcomes object t.pre.client.calls = 0 ∧
    between.dropWhile (fun t => !isProcessCancels t.act) = p :: rest

variable {object : Nat}

theorem mem_heldBy {conns : List (ClientConnection ρ δ)} {c : Client ρ δ} :
    object ∈ (heldBy conns c).map Prod.fst ↔
      (∃ conn ∈ conns, ∃ r, conn.request = some r ∧ r.object = object) ∨
        object ∈ c.queue.map ClientRequest.object := by
  have hkey : ∀ conn : ClientConnection ρ δ, ∀ k, conn.key = some k ↔ ∃ r, conn.request = some r ∧ r.key = k := by
    intro conn k
    rw [ClientConnection.key, Option.map_eq_some_iff]
  rw [heldBy, List.map_append, List.mem_append, List.map_map]
  refine or_congr ?_ Iff.rfl
  constructor
  · intro h
    obtain ⟨k, hk, rfl⟩ := List.mem_map.mp h
    obtain ⟨conn, hconn, hk⟩ := List.mem_filterMap.mp hk
    obtain ⟨r, hr, rfl⟩ := (hkey conn k).mp hk
    exact ⟨conn, hconn, r, hr, rfl⟩
  · rintro ⟨conn, hconn, r, hr, rfl⟩
    exact List.mem_map.mpr ⟨r.key, List.mem_filterMap.mpr ⟨conn, hconn, (hkey conn _).mpr ⟨r, hr, rfl⟩⟩, rfl⟩

theorem Inv.requestId {l : Location} {c : Client ρ δ} (h : Inv l c) {conn : ClientConnection ρ δ}
    (hconn : conn ∈ c.connections) {r : ClientRequest ρ} (hr : conn.request = some r) :
    r.requestId = requestIdOf r.object := by
  refine h.ids r.key (List.mem_append_left _ (List.mem_filterMap.mpr ⟨conn, hconn, ?_⟩))
  rw [ClientConnection.key, hr]
  rfl

variable [RequestClass ρ] [InflateClass δ]

theorem Moves.accounts {l l' : Location} {c c' : Client ρ δ} {a : Act ρ} (h : Inv l c) (hmove : Moves l c a l' c') :
    (∃ data, c' = c.addNewRequest data) ∨ Accounts c c' := by
  cases hmove with
  | addNewRequest => exact .inl ⟨_, rfl⟩
  | addNewConnection => exact .inr (.of_eq rfl rfl rfl (held_addNewConnection _ _ _))
  | cancelRequest _ hcancel => exact .inr (accounts_cancelRequest hcancel)
  | cancelRequestsByTarget _ hcancel => exact .inr (accounts_cancelRequestsByTarget hcancel).1
  | finish => exact .inr (.of_eq rfl rfl rfl (held_transferred _ _ _))
  | sweep hprocess => exact .inr (h.served (by simp) hprocess).1.accounts
  | processConnections hprocess => exact .inr (h.served (by simp) hprocess).1.accounts
  | processCancels hcancels =>
    rw [processCancels_eq (h.running (by simp)).2] at hcancels
    cases hcancels
    exact .inr (accounts_cancelled c c.cancels)
  | cancelEverything => exact .inr (accounts_cancelEverything c)
  | setNewConnectionProvider => exact .inr (.of_eq rfl rfl rfl rfl)
  | stop => exact .inr (.of_eq rfl rfl rfl rfl)
  | requestNewConnection => exact .inr (.of_eq rfl rfl rfl rfl)
  | getUnsatisfiedTarget => exact .inr (.of_eq rfl rfl rfl rfl)
  | post => exact .inr (.of_eq rfl rfl rfl rfl)
  | waitAsync => exact .inr (.of_eq rfl rfl rfl rfl)
  | wake => exact .inr (.of_eq rfl rfl rfl rfl)
  | timeout => exact .inr (.of_eq rfl rfl rfl rfl)
  | checkStop => exact .inr (.of_eq rfl rfl rfl rfl)

/-! ### What is gone stays gone -/

theorem callsOn_append_of_not_mem {calls more : Calls} (h : ∀ c ∈ more, c.1 ≠ object) :
    callsOn object (calls ++ more) = callsOn object calls := by
  have hnone : more.filter (fun c => c.1 = object) = [] := by simpa [List.filter_eq_nil_iff] using h
  rw [callsOn, List.filter_append, hnone, List.append_nil, callsOn]

theorem gone_moves {l l' : Location} {c c' : Client ρ δ} {a : Act ρ} (h : Inv l c) (hmove : Moves l c a l' c')
    (hcreated : object < c.created) (hgone : Gone object c) :
    object < c'.created ∧ Gone object c' ∧ callsOn object c'.calls = callsOn object c.calls := by
  have haccount := (h.moves hmove).account object
  suffices hcalls : object < c'.created ∧ ∃ more, c'.calls = c.calls ++ more ∧ ∀ x ∈ more, x.1 ≠ object by
    obtain ⟨hcreated', more, hcalls, hmore⟩ := hcalls
    have hzero : outcomes object more = 0 := by
      rw [outcomes, List.countP_eq_zero]
      intro x hx
      simp [hmore x hx]
    rw [hcalls, outcomes_append, hgone.1, hzero, if_pos hcreated'] at haccount
    refine ⟨hcreated', ⟨by rw [hcalls, outcomes_append, hgone.1, hzero], ?_⟩, ?_⟩
    · rw [← List.count_eq_zero]
      omega
    · rw [hcalls, callsOn_append_of_not_mem hmore]
  rcases hmove.accounts h with ⟨data, rfl⟩ | haccounts
  · unfold Client.addNewRequest
    simp only
    split_ifs
    · refine ⟨Nat.lt_succ_of_lt hcreated, _, rfl, ?_⟩
      simpa [Client.failure] using hcreated.ne'
    · exact ⟨Nat.lt_succ_of_lt hcreated, [], by simp, by simp⟩
  · obtain ⟨more, hmore, htransfers⟩ := haccounts.account
    refine ⟨haccounts.created ▸ hcreated, more, hmore, ?_⟩
    rintro x hx rfl
    exact hgone.2 (htransfers.called x hx)

theorem gone_forever {s : System ρ δ} (hinv : Inv s.location s.client)
    (hcreated : object < s.client.created) (hgone : Gone object s.client) (acts : List (Act ρ)) :
    ∀ t ∈ Run.trace System.step s acts,
      Gone object t.post.client ∧ callsOn object t.post.client.calls = callsOn object s.client.calls := by
  let I : System ρ δ → Prop := fun s' => Inv s'.location s'.client ∧ object < s'.client.created ∧
    Gone object s'.client ∧ callsOn object s'.client.calls = callsOn object s.client.calls
  have hstep : ∀ {s₁ a s₂}, System.step s₁ a = some s₂ → I s₁ → I s₂ := by
    intro s₁ a s₂ hstep hI
    obtain ⟨-, ⟨-, hl, hc, -⟩ | ⟨-, hmove⟩⟩ := System.step_cases hstep
    · show Inv s₂.location s₂.client ∧ _
      rw [hl, hc]
      exact hI
    · obtain ⟨hinv₁, hcreated₁, hgone₁, hcalls₁⟩ := hI
      obtain ⟨hcreated₂, hgone₂, hcalls₂⟩ := gone_moves hinv₁ hmove hcreated₁ hgone₁
      exact ⟨hinv₁.moves hmove, hcreated₂, hgone₂, hcalls₂.trans hcalls₁⟩
  intro t ht
  exact (Run.forall_post (I := I) hstep ⟨hinv, hcreated, hgone, rfl⟩ acts t ht).2.2.2

/-! ### The step of `processCancels` -/

theorem created_step {s s' : System ρ δ} {a : Act ρ} (hinv : Inv s.location s.client) (hstep : s.step a = some s') :
    s.client.created ≤ s'.client.created := by
  obtain ⟨-, ⟨-, -, hc, -⟩ | ⟨-, hmove⟩⟩ := System.step_cases hstep
  · rw [hc]
  · rcases hmove.accounts hinv with ⟨data, hc⟩ | haccounts
    · rw [hc, Client.addNewRequest]
      simp only
      split_ifs <;> exact Nat.le_succ _
    · exact haccounts.created.ge

/-- What the code gets right: the request is done with, or a connection has it and its id is known. -/
def Kept (object : Nat) (c : Client ρ δ) : Prop :=
  outcomes object c.calls = 1 ∨ object ∉ c.queue.map ClientRequest.object ∧ requestIdOf object ∈ c.cancels

/-- **One step.** `processCancels` ends the request exactly if it is kept in that sense. -/
theorem gone_processCancels_iff {c c' : Client ρ δ} (hinv : Inv .cancels c) (hprocess : c.processCancels = some c')
    (hcreated : object < c.created) : Gone object c' ↔ Kept object c := by
  have hafter := (hinv.moves (.processCancels hprocess)).account object
  have hbefore := hinv.account object
  rw [processCancels_eq (hinv.running (by simp)).2] at hprocess
  cases hprocess
  simp only [if_pos hcreated] at hbefore hafter
  have hgone : Gone object { c with
      connections := c.connections.filter fun conn => !conn.isCancelled c.cancels
      cancels := []
      calls := c.calls ++ cancelCalls (c.connections.filter fun conn => conn.isCancelled c.cancels) } ↔
      object ∉ (heldBy (c.connections.filter fun conn => !conn.isCancelled c.cancels) c).map Prod.fst := by
    refine ⟨And.right, fun hnot => ⟨?_, hnot⟩⟩
    have hzero := List.count_eq_zero.mpr hnot
    rw [held] at hafter
    exact (by omega : ∀ n m : Nat, n + m = 1 → n = 0 → m = 1) _ _ hafter hzero
  rw [hgone, mem_heldBy]
  push Not
  constructor
  · rintro ⟨hconns, hqueue⟩
    by_cases hone : outcomes object c.calls = 1
    · exact .inl hone
    · have hmem : object ∈ c.held.map Prod.fst := by
        rw [← List.count_pos_iff]
        omega
      obtain ⟨conn, hconn, r, hr, rfl⟩ | hmem := mem_heldBy.mp hmem
      · refine .inr ⟨hqueue, ?_⟩
        by_contra hid
        refine hconns conn (List.mem_filter.mpr ⟨hconn, ?_⟩) r hr rfl
        simp [ClientConnection.isCancelled, hr, hinv.requestId hconn hr, hid]
      · exact absurd hmem hqueue
  · rintro (hone | ⟨hqueue, hid⟩)
    · have hnot : object ∉ c.held.map Prod.fst := by
        rw [← List.count_eq_zero]
        omega
      rw [held, mem_heldBy] at hnot
      push Not at hnot
      exact ⟨fun conn hconn => hnot.1 conn (List.mem_of_mem_filter hconn), hnot.2⟩
    · refine ⟨?_, hqueue⟩
      rintro conn hconn r hr rfl
      obtain ⟨hconn, hkept⟩ := List.mem_filter.mp hconn
      rw [← hinv.requestId hconn hr] at hid
      simp [ClientConnection.isCancelled, hr, hid] at hkept

theorem CancelledAt.step {acts : List (Act ρ)} {p : Run.Taken (System ρ δ) (Act ρ)}
    {rest : List (Run.Taken (System ρ δ) (Act ρ))}
    (h : CancelledAt (Run.trace System.step (System.create : System ρ δ) acts) object p rest) :
    object < p.pre.client.created ∧ Inv .cancels p.pre.client ∧ p.pre.client.processCancels = some p.post.client ∧
      Inv p.post.location p.post.client ∧ ∃ acts', rest = Run.trace System.step p.post acts' := by
  obtain ⟨t, between, hsuffix, -, hcreated, -, hnext⟩ := h
  have hmem : t ∈ Run.trace System.step (System.create : System ρ δ) acts := hsuffix.mem List.mem_cons_self
  obtain ⟨hpre, hpost⟩ := Run.forall_post (I := fun s : System ρ δ => Inv s.location s.client) Inv.step Inv.create
    acts t hmem
  have hlater := created_step hpre (Run.step_of_mem_trace hmem)
  obtain ⟨acts', rfl⟩ := Run.trace_of_suffix hsuffix
  have hsuffix' : p :: rest <:+ Run.trace System.step t.post acts' := hnext ▸ List.dropWhile_suffix _
  have hp : p ∈ Run.trace System.step t.post acts' := hsuffix'.mem List.mem_cons_self
  have hstep : ∀ {s₁ : System ρ δ} {a : Act ρ} {s₂ : System ρ δ}, s₁.step a = some s₂ →
      Inv s₁.location s₁.client ∧ object < s₁.client.created →
        Inv s₂.location s₂.client ∧ object < s₂.client.created := by
    intro s₁ a s₂ hstep hI
    exact ⟨Inv.step hstep hI.1, lt_of_lt_of_le hI.2 (created_step hI.1 hstep)⟩
  obtain ⟨⟨hpinv, hpcreated⟩, hpinv', -⟩ := Run.forall_post
    (I := fun s : System ρ δ => Inv s.location s.client ∧ object < s.client.created) hstep
    ⟨hpost, lt_of_lt_of_le hcreated hlater⟩ acts' p hp
  have hact : p.act = .processCancels := by
    have hhead := List.head?_dropWhile_not (fun t : Run.Taken (System ρ δ) (Act ρ) => !isProcessCancels t.act)
      (Run.trace System.step t.post acts')
    rw [hnext] at hhead
    simp only [List.head?_cons, Bool.not_eq_false'] at hhead
    rcases hp : p.act <;> rw [hp] at hhead <;> first | rfl | cases hhead
  have hpstep := Run.step_of_mem_trace hp
  rw [hact] at hpstep
  refine ⟨hpcreated, ?_⟩
  obtain ⟨-, ⟨-, -, -, hfails⟩ | ⟨-, hmove⟩⟩ := System.step_cases hpstep
  · exfalso
    refine hpinv.not_fails (hpinv.running ?_).1 hfails
    intro hl
    rw [hl] at hfails
    cases hfails
  · obtain ⟨hl, hprocess⟩ := hmove.processCancels_inv
    exact ⟨hl ▸ hpinv, hprocess, hpinv', Run.trace_of_suffix hsuffix'⟩

/-- **Cancellation.** In every run, each request for which `cancelRequest` was called in time is gone after the next
step of `processCancels` and is never called again, exactly if at each of these steps it has been done with or is held
by a connection with its id among the ids to cancel. -/
theorem cancels_kept_iff (acts : List (Act ρ)) :
    (∀ object p rest, CancelledAt (Run.trace System.step (System.create : System ρ δ) acts) object p rest →
        ∀ t ∈ p :: rest, Gone object t.post.client ∧
          callsOn object t.post.client.calls = callsOn object p.post.client.calls) ↔
      ∀ object p rest, CancelledAt (Run.trace System.step (System.create : System ρ δ) acts) object p rest →
        Kept object p.pre.client := by
  refine forall_congr' fun object => forall_congr' fun p => forall_congr' fun rest => forall_congr' fun hat => ?_
  obtain ⟨hcreated, hpre, hprocess, hpost, acts', rfl⟩ := hat.step
  rw [← gone_processCancels_iff hpre hprocess hcreated]
  constructor
  · intro h
    exact (h p List.mem_cons_self).1
  · intro hgone t ht
    have hcreated' : object < p.post.client.created := by
      rw [processCancels_eq (hpre.running (by simp)).2] at hprocess
      rw [← Option.some.inj hprocess]
      exact hcreated
    rcases List.mem_cons.mp ht with rfl | ht
    · exact ⟨hgone, rfl⟩
    · exact gone_forever hpost hcreated' hgone acts' t ht

/-- A request is sent; the server closes the connection while another thread cancels the request, which is restarted and
so goes back to the queue. -/
def restartedRun : List (Act GetRequest) :=
  [.addNewRequest ⟨lit "h", false, false⟩, .post, .addNewConnection ⟨lit "h", lit "80"⟩ (lit "http"), .post,
    .requestNewConnection, .waitAsync, .sweep, .wake, .checkStop, .processCancels,
    .requestNewConnection, .waitAsync, .sweep, .wake, .checkStop, .processCancels,
    .requestNewConnection, .waitAsync, .sweep, .finish 0 (.sent 0) 10, .cancelRequest 1, .processConnections,
    .requestNewConnection, .waitAsync, .sweep, .wake, .checkStop, .processCancels]

/-- The cancelled request is still waiting in the queue after `processCancels`. -/
theorem restarted_cancel_lost :
    ¬∀ object p rest, CancelledAt (Run.trace System.step (System.create : System GetRequest Unit) restartedRun) object p
        rest → ∀ t ∈ p :: rest, Gone object t.post.client ∧
          callsOn object t.post.client.calls = callsOn object p.post.client.calls := by
  intro h
  have hlength : 20 < (Run.trace System.step (System.create : System GetRequest Unit) restartedRun).length := by decide
  have hsuffix := List.drop_eq_getElem_cons hlength ▸ List.drop_suffix 20 _
  have hgone : 0 = 1 := (h 0 _ _ ⟨_, _, hsuffix, rfl, Nat.zero_lt_one, rfl, rfl⟩ _ List.mem_cons_self).1.1
  cases hgone

end Afl.Net.Http
