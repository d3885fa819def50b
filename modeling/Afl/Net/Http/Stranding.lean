import Afl.Net.Http.ClientRuns
import Mathlib.Data.List.Nodup

/-!
# Requests that wait for a connection

A request of the queue that no connection matches can only be served after the provider has been asked for a new
connection (`Told`). `waiting_told_iff` says that every waiting request has the flag `m_needNewConnection` or has been
told about exactly if `processCancels` never removes the last connection that matches one without setting the flag.
-/

namespace Afl.Net.Http

open Client

variable {ρ δ : Type}

theorem targets_refl (c : Client ρ δ) : ∀ conn ∈ c.connections, ∃ conn' ∈ c.connections, target conn' = target conn :=
  fun conn hconn => ⟨conn, hconn, rfl⟩

theorem Inv.queue_unique {l : Location} {c : Client ρ δ} (h : Inv l c) {r r' : ClientRequest ρ} (hr : r ∈ c.queue)
    (hr' : r' ∈ c.queue) (hobject : r'.object = r.object) : r' = r := by
  have hnodup : (c.held.map Prod.fst).Nodup := by
    rw [List.nodup_iff_count_le_one]
    intro object
    have haccount := h.account object
    split_ifs at haccount <;> omega
  rw [held, heldBy, List.map_append, List.map_map] at hnodup
  exact List.inj_on_of_nodup_map hnodup.of_append_right hr' hr hobject

variable [RequestClass ρ]

/-- The request is in the queue and no connection matches it. -/
def Waiting (object : Nat) (c : Client ρ δ) : Prop :=
  ∃ r ∈ c.queue, r.object = object ∧ ∀ conn ∈ c.connections, conn.matchRequest r = false

/-- The provider was called in this run while the request was waiting, and it has been waiting ever since. -/
def Told (run : List (Run.Taken (System ρ δ) (Act ρ))) (object : Nat) : Prop :=
  ∃ before t after, run = before ++ t :: after ∧ t.act = .requestNewConnection ∧
    t.pre.client.callsProvider = true ∧ Waiting object t.pre.client ∧ ∀ t' ∈ t :: after, Waiting object t'.post.client

/-- A waiting request will be, or has been, brought to the provider's attention. -/
def NotStranded (run : List (Run.Taken (System ρ δ) (Act ρ))) (s : System ρ δ) : Prop :=
  ∀ object, Waiting object s.client → s.client.needNewConnection = true ∨ Told run object

/-- After `processCancels`, requests that had a matching connection have one, or the flag is set. -/
def KeepsMatch (c : Client ρ δ) : Prop :=
  c.needNewConnection = true ∨ ∀ r ∈ c.queue, ∀ conn ∈ c.connections, conn.matchRequest r = true →
    ∃ conn' ∈ c.connections, conn'.isCancelled c.cancels = false ∧ conn'.matchRequest r = true

/-! ### Waiting, step by step -/

theorem matchRequest_eq_of_target {conn conn' : ClientConnection ρ δ} (h : target conn' = target conn)
    (r : ClientRequest ρ) : conn'.matchRequest r = conn.matchRequest r := by
  unfold target at h
  rw [Prod.mk.injEq] at h
  rw [ClientConnection.matchRequest, ClientConnection.matchRequest, h.1, h.2]

variable {object : Nat} {c c' : Client ρ δ}

theorem Waiting.of_subset (h : Waiting object c') (hqueue : c'.queue ⊆ c.queue)
    (htargets : ∀ conn ∈ c.connections, ∃ conn' ∈ c'.connections, target conn' = target conn) : Waiting object c := by
  obtain ⟨r, hr, hobject, hmatch⟩ := h
  refine ⟨r, hqueue hr, hobject, ?_⟩
  intro conn hconn
  obtain ⟨conn', hconn', htarget⟩ := htargets conn hconn
  rw [← matchRequest_eq_of_target htarget]
  exact hmatch conn' hconn'

theorem Waiting.of_served (h : Waiting object c') (hqueue : c'.queue ⊆ c.queue)
    (htargets : c'.connections.map target = c.connections.map target) : Waiting object c := by
  refine h.of_subset hqueue fun conn hconn => ?_
  have hmem : target conn ∈ c'.connections.map target := htargets ▸ List.mem_map_of_mem hconn
  exact List.mem_map.mp hmem

theorem Waiting.of_kept (h : Waiting object c') (hqueue : c'.queue = c.queue)
    (hconns : c'.connections = c.connections.filter fun conn => !conn.isCancelled c.cancels)
    (hkeeps : ∀ r ∈ c.queue, ∀ conn ∈ c.connections, conn.matchRequest r = true →
      ∃ conn' ∈ c.connections, conn'.isCancelled c.cancels = false ∧ conn'.matchRequest r = true) :
    Waiting object c := by
  obtain ⟨r, hr, hobject, hmatch⟩ := h
  rw [hqueue] at hr
  rw [hconns] at hmatch
  refine ⟨r, hr, hobject, fun conn hconn => ?_⟩
  by_contra hmatched
  obtain ⟨conn', hconn', hkept, hmatch'⟩ := hkeeps r hr conn hconn (by simpa using hmatched)
  have hnot := hmatch conn' (List.mem_filter.mpr ⟨hconn', by simp [hkept]⟩)
  rw [hmatch'] at hnot
  cases hnot

theorem Waiting.of_flag (a : Act ρ) (h : Waiting object c) (hflag : c'.needNewConnection = c.needNewConnection) :
    c'.needNewConnection = true ∨
      Waiting object c ∧ (c.needNewConnection = false ∨ a = .requestNewConnection) := by
  rcases hneed : c.needNewConnection with _ | _
  · exact .inr ⟨h, .inl rfl⟩
  · exact .inl (hflag.trans hneed)

/-! ### Histories -/

variable {run : List (Run.Taken (System ρ δ) (Act ρ))}

theorem Told.snoc (h : Told run object)
    {t : Run.Taken (System ρ δ) (Act ρ)} (hwaiting : Waiting object t.post.client) : Told (run ++ [t]) object := by
  obtain ⟨before, t₀, after, hrun, hact, hcalls, hpre, hpost⟩ := h
  refine ⟨before, t₀, after ++ [t], by rw [hrun, List.append_assoc, List.cons_append], hact, hcalls, hpre, ?_⟩
  intro t' ht'
  rw [← List.cons_append, List.mem_append, List.mem_singleton] at ht'
  rcases ht' with ht' | rfl
  · exact hpost t' ht'
  · exact hwaiting

theorem Told.waiting (h : Told run object) :
    ∃ t, run.getLast? = some t ∧ Waiting object t.post.client := by
  obtain ⟨before, t, after, rfl, -, -, -, hpost⟩ := h
  rw [List.getLast?_append_cons, List.getLast?_eq_some_getLast (List.cons_ne_nil _ _)]
  exact ⟨_, rfl, hpost _ (List.getLast_mem _)⟩

theorem Told.of_snoc
    {t : Run.Taken (System ρ δ) (Act ρ)} (h : Told (run ++ [t]) object) (hact : t.act ≠ .requestNewConnection) :
    Told run object := by
  obtain ⟨before, t₀, after, hrun, hact₀, hcalls, hpre, hpost⟩ := h
  rcases List.eq_nil_or_concat after with rfl | ⟨after, t', rfl⟩
  · obtain ⟨-, ht⟩ := List.append_inj' hrun rfl
    cases ht
    exact absurd hact₀ hact
  · rw [List.concat_eq_append, ← List.cons_append, ← List.append_assoc] at hrun
    obtain ⟨rfl, -⟩ := List.append_inj' hrun rfl
    refine ⟨before, t₀, after, rfl, hact₀, hcalls, hpre, fun t' ht' => hpost t' ?_⟩
    rw [List.concat_eq_append, ← List.cons_append]
    exact List.mem_append_left _ ht'

/-! ### Steps -/

variable [InflateClass δ]

/-- **One step.** Who waits after a step has waited before it, unless the flag is set. Only `requestNewConnection`
clears the flag. -/
theorem waiting_moves {l l' : Location} {a : Act ρ} (h : Inv l c) (hmove : Moves l c a l' c')
    (hcancels : a = .processCancels → KeepsMatch c) (hwaiting : Waiting object c') :
    c'.needNewConnection = true ∨
      Waiting object c ∧ (c.needNewConnection = false ∨ a = .requestNewConnection) := by
  have hserved : Served c.connections c'.connections c c' → c'.needNewConnection = true ∨
      Waiting object c ∧ (c.needNewConnection = false ∨ a = .requestNewConnection) := by
    intro hserved
    rcases hserved.flag with hflag | ⟨hflag, hqueue, htargets⟩
    · exact .inl hflag
    · exact (hwaiting.of_served hqueue htargets).of_flag a hflag
  cases hmove with
  | addNewConnection =>
    have hbefore : Waiting object c := hwaiting.of_subset (List.Subset.refl _) fun conn hconn =>
      ⟨conn, List.mem_append_left _ hconn, rfl⟩
    exact hbefore.of_flag _ rfl
  | addNewRequest =>
    by_cases hstop : c.stop = true
    · refine (hwaiting.of_subset ?_ ?_).of_flag _ ?_ <;> simp only [Client.addNewRequest, hstop, if_true]
      · exact List.Subset.refl _
      · exact targets_refl c
      · rfl
    · exact .inl (by simp [Client.addNewRequest, hstop])
  | cancelRequest _ hcancel =>
    obtain ⟨hconns, hflag, -, hqueue⟩ := cancelRequest_frame hcancel
    exact (hwaiting.of_subset hqueue (hconns ▸ targets_refl _)).of_flag _ hflag
  | cancelRequestsByTarget _ hcancel =>
    obtain ⟨hconns, hflag, -⟩ := cancelRequestsByTarget_frame hcancel
    have hqueue := (accounts_cancelRequestsByTarget hcancel).2.2
    exact (hwaiting.of_subset hqueue (hconns ▸ targets_refl _)).of_flag _ hflag
  | finish _ _ transfer =>
    have hbefore : Waiting object c := by
      refine hwaiting.of_subset (List.Subset.refl _) fun conn hconn => ⟨_, List.mem_map_of_mem hconn, ?_⟩
      split_ifs
      · cases transfer <;> rfl
      · rfl
    exact hbefore.of_flag _ rfl
  | sweep hprocess => exact hserved (h.served (by simp) hprocess).1
  | processConnections hprocess => exact hserved (h.served (by simp) hprocess).1
  | processCancels hprocess =>
    rw [processCancels_eq (h.running (by simp)).2] at hprocess
    cases hprocess
    rcases hcancels rfl with hneed | hkeeps
    · exact .inl hneed
    · have hbefore : Waiting object c := hwaiting.of_kept rfl rfl hkeeps
      exact hbefore.of_flag _ rfl
  | cancelEverything =>
    obtain ⟨r, hr, -⟩ := hwaiting
    simp [Client.cancelEverything, queue] at hr
  | requestNewConnection => exact .inr ⟨hwaiting, .inr rfl⟩
  | setNewConnectionProvider => exact hwaiting.of_flag _ rfl
  | stop => exact hwaiting.of_flag _ rfl
  | getUnsatisfiedTarget => exact hwaiting.of_flag _ rfl
  | post => exact hwaiting.of_flag _ rfl
  | waitAsync => exact hwaiting.of_flag _ rfl
  | wake => exact hwaiting.of_flag _ rfl
  | timeout => exact hwaiting.of_flag _ rfl
  | checkStop => exact hwaiting.of_flag _ rfl

theorem provider_moves {l l' : Location} {a : Act ρ} (h : Inv l c) (hmove : Moves l c a l' c')
    (hprovider : c.provider = true) : c'.provider = true := by
  cases hmove with
  | addNewRequest =>
    unfold Client.addNewRequest
    simp only
    split_ifs <;> exact hprovider
  | cancelRequest _ hcancel => exact (cancelRequest_frame hcancel).2.2.1.trans hprovider
  | cancelRequestsByTarget _ hcancel => exact (cancelRequestsByTarget_frame hcancel).2.2.1.trans hprovider
  | sweep hprocess => exact (h.served (by simp) hprocess).1.provider.trans hprovider
  | processConnections hprocess => exact (h.served (by simp) hprocess).1.provider.trans hprovider
  | processCancels hprocess =>
    rw [processCancels_eq (h.running (by simp)).2] at hprocess
    cases hprocess
    exact hprovider
  | setNewConnectionProvider => rfl
  | _ => exact hprovider

/-! ### Runs -/

/-- The invariant along a run. -/
structure RunInv (run : List (Run.Taken (System ρ δ) (Act ρ))) (s : System ρ δ) : Prop where
  inv : Inv s.location s.client
  provider : s.client.provider = true
  last : ∀ t, run.getLast? = some t → t.post = s
  notStranded : NotStranded run s

theorem RunInv.keep {s s' : System ρ δ} {a : Act ρ}
    (hstep : s.step a = some s') (h : RunInv run s) (hcancels : a = .processCancels → KeepsMatch s.client) :
    RunInv (run ++ [⟨s, a, s'⟩]) s' := by
  obtain ⟨-, ⟨-, hl, hc, -⟩ | ⟨-, hmove⟩⟩ := System.step_cases hstep
  · refine ⟨by rw [hl, hc]; exact h.inv, by rw [hc]; exact h.provider, by simp, ?_⟩
    intro object hwaiting
    rw [hc] at hwaiting ⊢
    refine (h.notStranded object hwaiting).imp_right fun htold => htold.snoc ?_
    show Waiting object s'.client
    rw [hc]
    exact hwaiting
  · refine ⟨h.inv.moves hmove, provider_moves h.inv hmove h.provider, by simp, ?_⟩
    intro object hwaiting
    rcases waiting_moves h.inv hmove hcancels hwaiting with hneed | ⟨hbefore, hclear⟩
    · exact .inl hneed
    · rcases h.notStranded object hbefore with hneed | htold
      · rcases hclear with hclear | rfl
        · rw [hneed] at hclear
          cases hclear
        · refine .inr ⟨run, _, [], rfl, rfl, ?_, hbefore, by simpa using hwaiting⟩
          simp [callsProvider, hneed, h.provider]
      · exact .inr (htold.snoc hwaiting)

theorem RunInv.break {s s' : System ρ δ} {a : Act ρ}
    (hstep : s.step a = some s') (h : RunInv run s) (hcancels : ¬(a = .processCancels → KeepsMatch s.client)) :
    ¬NotStranded (run ++ [⟨s, a, s'⟩]) s' := by
  rw [Classical.not_imp] at hcancels
  obtain ⟨rfl, hmatch⟩ := hcancels
  unfold KeepsMatch at hmatch
  push Not at hmatch
  obtain ⟨hneed, r, hr, conn, hconn, hconnmatch, hlast⟩ := hmatch
  obtain ⟨-, ⟨-, -, -, hfails⟩ | ⟨-, hmove⟩⟩ := System.step_cases hstep
  · refine (h.inv.not_fails (h.inv.running ?_).1 hfails).elim
    intro hl
    rw [hl] at hfails
    cases hfails
  · obtain ⟨hl, hprocess⟩ := hmove.processCancels_inv
    have hinv : Inv .cancels s.client := hl ▸ h.inv
    rw [processCancels_eq (hinv.running (by simp)).2] at hprocess
    have hclient := Option.some.inj hprocess
    intro hnot
    have hwaiting : Waiting r.object s'.client := by
      rw [← hclient]
      refine ⟨r, hr, rfl, ?_⟩
      intro conn' hconn'
      obtain ⟨hconn', hkept⟩ := List.mem_filter.mp hconn'
      simpa using hlast conn' hconn' (by simpa using hkept)
    rcases hnot r.object hwaiting with hneed' | htold
    · rw [← hclient] at hneed'
      exact hneed hneed'
    · obtain ⟨t, ht, r', hr', hobject, hnone⟩ := (htold.of_snoc (by simp)).waiting
      rw [h.last t ht] at hr' hnone
      rw [h.inv.queue_unique hr hr' hobject] at hnone
      rw [hnone conn hconn] at hconnmatch
      cases hconnmatch

def System.installed : System ρ δ :=
  { (System.create : System ρ δ) with client := Client.create.setNewConnectionProvider }

theorem runInv_installed : RunInv [] (System.installed : System ρ δ) := by
  have hinv : Inv .notify (Client.create.setNewConnectionProvider : Client ρ δ) :=
    Inv.create.moves (.setNewConnectionProvider _ _)
  refine ⟨hinv, rfl, by simp, ?_⟩
  rintro object ⟨r, hr, -⟩
  simp [System.installed, Client.setNewConnectionProvider, Client.create, queue] at hr

theorem notStranded_iff {s : System ρ δ} (hs : RunInv [] s) (acts : List (Act ρ)) :
    (∀ before t after, Run.trace System.step s acts = before ++ t :: after → NotStranded (before ++ [t]) t.post) ↔
      ∀ t ∈ Run.trace System.step s acts, t.act = .processCancels → KeepsMatch t.pre.client :=
  Run.forall_history_iff (h := []) (I := RunInv) (G := NotStranded)
    (C := fun s a => a = .processCancels → KeepsMatch s.client) RunInv.notStranded RunInv.keep RunInv.break hs acts

/-- **Waiting requests.** In every run with a provider, a request that waits for a connection has the flag set or has
been told about since it waits, in every state, exactly if `processCancels` always keeps a match or has the flag. -/
theorem waiting_told_iff (acts : List (Act ρ)) :
    (∀ before t after, Run.trace System.step (System.installed : System ρ δ) acts = before ++ t :: after →
        NotStranded (before ++ [t]) t.post) ↔
      ∀ t ∈ Run.trace System.step (System.installed : System ρ δ) acts,
        t.act = .processCancels → KeepsMatch t.pre.client :=
  notStranded_iff runInv_installed acts

/-- A second request for the same host is added while the first one is being sent, and the first one is cancelled. -/
def strandedRun : List (Act GetRequest) :=
  [.addNewRequest ⟨lit "h", false, false⟩, .post, .addNewConnection ⟨lit "h", lit "80"⟩ (lit "http"), .post,
    .requestNewConnection, .waitAsync, .sweep, .wake, .checkStop, .processCancels,
    .requestNewConnection, .waitAsync, .sweep, .wake, .checkStop, .processCancels,
    .addNewRequest ⟨lit "h", false, false⟩, .post, .requestNewConnection, .cancelRequest 1,
    .waitAsync, .sweep, .wake, .checkStop, .processCancels]

/-- The second request waits for a connection that nobody has been asked for. -/
theorem cancel_strands_request :
    ¬∀ before t after,
      Run.trace System.step (System.installed : System GetRequest Unit) strandedRun = before ++ t :: after →
        NotStranded (before ++ [t]) t.post := by
  rw [notStranded_iff runInv_installed]
  intro h
  have hlength : 24 < (Run.trace System.step (System.installed : System GetRequest Unit) strandedRun).length := by
    decide
  rcases h _ (List.getElem_mem hlength) rfl with hneed | hkeeps
  · cases hneed
  · obtain ⟨conn, hconn, hkept, -⟩ := hkeeps _ List.mem_cons_self _ List.mem_cons_self rfl
    rcases List.mem_singleton.mp hconn with rfl
    cases hkept

end Afl.Net.Http
