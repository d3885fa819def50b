import Afl.Lib.Run
import Afl.Net.Http.ClientSteps

/-!
# Runs of the HTTP client

`Moves` is a step of the system as the requests see it, and `Fails` lists the steps that can go wrong; `step_cases` says
that there is nothing else. `Inv` holds in every state of every run: each request added is held once or has had its
final callback, and until `run()` returns the queue has no null entries and the connections are settled. From it follows
the exact condition under which the queue never holds a null entry.
-/

namespace Afl.Net.Http

open Client

variable {ρ δ : Type}

/-! ### Steps -/

namespace System

@[simp] theorem post_client (s : System ρ δ) : s.post.client = s.client := by unfold post; split_ifs <;> rfl

@[simp] theorem post_location (s : System ρ δ) : s.post.location = s.location := by unfold post; split_ifs <;> rfl

@[simp] theorem post_failed (s : System ρ δ) : s.post.failed = s.failed := by unfold post; split_ifs <;> rfl

theorem fromLocation_eq {s s' t : System ρ δ} {l : Location} (h : s.fromLocation l t = some s') :
    s.location = l ∧ s' = t := by
  unfold fromLocation at h
  split_ifs at h with hl
  cases h
  exact ⟨hl, rfl⟩

end System

variable [RequestClass ρ] [InflateClass δ]

/-- A step that succeeds: location and client before, action, location and client after. -/
inductive Moves : Location → Client ρ δ → Act ρ → Location → Client ρ δ → Prop
  | addNewConnection (l : Location) (c : Client ρ δ) (name : Name) (scheme : Bytes) :
      Moves l c (.addNewConnection name scheme) l (c.addNewConnection name scheme)
  | addNewRequest (l : Location) (c : Client ρ δ) (data : ρ) : Moves l c (.addNewRequest data) l (c.addNewRequest data)
  | cancelRequest (l : Location) {c c' : Client ρ δ} {id : UInt32} {deferred : Bool}
      (h : c.cancelRequest id = some (deferred, c')) : Moves l c (.cancelRequest id) l c'
  | setNewConnectionProvider (l : Location) (c : Client ρ δ) :
      Moves l c .setNewConnectionProvider l c.setNewConnectionProvider
  | stop (l : Location) (c : Client ρ δ) : Moves l c .stop l { c with stop := true }
  | cancelRequestsByTarget (l : Location) {c c' : Client ρ δ} {name : Name} {scheme : Bytes} {reason : FailureReason}
      {message : Bytes} (h : c.cancelRequestsByTarget name scheme reason message = some c') :
      Moves l c (.cancelRequestsByTarget name scheme reason message) l c'
  | getUnsatisfiedTarget (l : Location) (c : Client ρ δ) : Moves l c .getUnsatisfiedTarget l c
  | post (l : Location) (c : Client ρ δ) : Moves l c .post l c
  | requestNewConnection (c : Client ρ δ) : Moves .notify c .requestNewConnection .arm c.requestNewConnection
  | waitAsync (c : Client ρ δ) : Moves .arm c .waitAsync .sweep c
  | sweep {c c' : Client ρ δ} (h : c.processConnections none 0 = some c') : Moves .sweep c .sweep .wait c'
  | wake (c : Client ρ δ) : Moves .wait c .wake .woken c
  | finish (c : Client ρ δ) (connection : Nat) (transfer : Transfer) (elapsed : UInt32) :
      Moves .wait c (.finish connection transfer elapsed) (.event (some ⟨connection, transfer.kind⟩) elapsed)
        (c.transferred connection transfer)
  | timeout (c : Client ρ δ) (elapsed : UInt32) : Moves .wait c (.timeout elapsed) (.event none elapsed) c
  | checkStop (c : Client ρ δ) : Moves .woken c .checkStop (if c.stop then .shutdown else .cancels) c
  | processConnections {p : Option AsyncOperation} {elapsed : UInt32} {c c' : Client ρ δ}
      (h : c.processConnections p elapsed = some c') : Moves (.event p elapsed) c .processConnections .notify c'
  | processCancels {c c' : Client ρ δ} (h : c.processCancels = some c') : Moves .cancels c .processCancels .notify c'
  | cancelEverything (c : Client ρ δ) : Moves .shutdown c .cancelEverything .returned c.cancelEverything

/-- A step that goes wrong. -/
inductive Fails : Location → Client ρ δ → Act ρ → Prop
  | cancelRequest (l : Location) {c : Client ρ δ} {id : UInt32} (h : c.cancelRequest id = none) :
      Fails l c (.cancelRequest id)
  | cancelRequestsByTarget (l : Location) {c : Client ρ δ} {name : Name} {scheme : Bytes} {reason : FailureReason}
      {message : Bytes} (h : c.cancelRequestsByTarget name scheme reason message = none) :
      Fails l c (.cancelRequestsByTarget name scheme reason message)
  | getUnsatisfiedTarget (l : Location) {c : Client ρ δ} (h : c.getUnsatisfiedTarget = none) :
      Fails l c .getUnsatisfiedTarget
  | sweep {c : Client ρ δ} (h : c.processConnections none 0 = none) : Fails .sweep c .sweep
  | processConnections {p : Option AsyncOperation} {elapsed : UInt32} {c : Client ρ δ}
      (h : c.processConnections p elapsed = none) : Fails (.event p elapsed) c .processConnections
  | processCancels {c : Client ρ δ} (h : c.processCancels = none) : Fails .cancels c .processCancels

variable {l l' : Location} {c c' : Client ρ δ}

theorem Moves.processCancels_inv (h : Moves l c .processCancels l' c') :
    l = .cancels ∧ c.processCancels = some c' := by
  cases h with
  | processCancels hprocess => exact ⟨rfl, hprocess⟩

variable {a : Act ρ}

namespace System

/-- The system fails with client and worker where they were, or moves. -/
def Goes (s : System ρ δ) (a : Act ρ) (s' : System ρ δ) : Prop :=
  s'.failed = true ∧ s'.location = s.location ∧ s'.client = s.client ∧ Fails s.location s.client a ∨
    s'.failed = false ∧ Moves s.location s.client a s'.location s'.client

theorem goes_locked {s : System ρ δ} {c : Option (Client ρ δ)} {next : System ρ δ → System ρ δ}
    (hfails : c = none → Fails s.location s.client a) (hrunning : ∀ t : System ρ δ, (next t).failed = t.failed)
    (hmoves : ∀ c', c = some c' →
      Moves s.location s.client a (next { s with client := c' }).location (next { s with client := c' }).client)
    (hs : s.failed = false) : Goes s a (s.locked c next) := by
  rcases c with _ | c'
  · exact .inl ⟨rfl, rfl, rfl, hfails rfl⟩
  · exact .inr ⟨(hrunning _).trans hs, hmoves c' rfl⟩

theorem goes_cancelRequest {s s' : System ρ δ} {id : UInt32} (hs : s.failed = false)
    (h : s.stepRunning (.cancelRequest id) = some s') : Goes s (.cancelRequest id) s' := by
  rw [stepRunning] at h
  rcases hc : s.client.cancelRequest id with _ | ⟨deferred, c⟩ <;> rw [hc] at h <;> cases h
  · exact .inl ⟨rfl, rfl, rfl, .cancelRequest _ hc⟩
  · refine .inr ?_
    cases deferred
    · exact ⟨hs, .cancelRequest _ hc⟩
    · rw [if_pos rfl, post_failed, post_location, post_client]
      exact ⟨hs, .cancelRequest _ hc⟩

theorem goes_worker {s s' : System ρ δ} (hs : s.failed = false) (h : s.stepRunning a = some s')
    (ha : a = .sweep ∨ a = .processConnections ∨ a = .processCancels) : Goes s a s' := by
  rcases ha with rfl | rfl | rfl
  · obtain ⟨hl, rfl⟩ := fromLocation_eq h
    exact goes_locked (fun hc => hl ▸ .sweep hc) (fun _ => rfl) (fun c hc => hl ▸ .sweep hc) hs
  · rw [stepRunning] at h
    split at h <;> cases h
    rename_i p elapsed hl
    exact goes_locked (fun hc => hl ▸ .processConnections hc) (fun _ => rfl)
      (fun c hc => hl ▸ .processConnections hc) hs
  · obtain ⟨hl, rfl⟩ := fromLocation_eq h
    exact goes_locked (fun hc => hl ▸ .processCancels hc) (fun _ => rfl) (fun c hc => hl ▸ .processCancels hc) hs

theorem moves_worker {s t : System ρ δ} {l : Location} (hs : s.failed = false) (hl : s.location = l)
    (hfailed : t.failed = s.failed) (hmove : Moves l s.client a t.location t.client) : Goes s a t :=
  .inr ⟨hfailed.trans hs, hl ▸ hmove⟩

/-- **All steps.** The system was running, and either fails with client and worker where they were, or moves. -/
theorem step_cases {s s' : System ρ δ} (h : s.step a = some s') : s.failed = false ∧ Goes s a s' := by
  unfold step at h
  split_ifs at h with hf
  have hs : s.failed = false := by simpa using hf
  refine ⟨hs, ?_⟩
  cases a with
  | addNewConnection name scheme =>
    cases h
    exact .inr ⟨hs, .addNewConnection _ _ _ _⟩
  | addNewRequest data =>
    cases h
    exact .inr ⟨hs, .addNewRequest _ _ _⟩
  | cancelRequest id => exact goes_cancelRequest hs h
  | setNewConnectionProvider =>
    cases h
    exact .inr ⟨hs, .setNewConnectionProvider _ _⟩
  | stop =>
    cases h
    exact .inr ⟨hs, .stop _ _⟩
  | cancelRequestsByTarget name scheme reason message =>
    cases h
    exact goes_locked (.cancelRequestsByTarget _) (fun _ => rfl) (fun _ => .cancelRequestsByTarget _) hs
  | getUnsatisfiedTarget =>
    cases h
    refine goes_locked ?_ (fun _ => rfl) ?_ hs
    · exact fun hc => .getUnsatisfiedTarget _ (Option.map_eq_none_iff.mp hc)
    · intro c hc
      obtain ⟨_, -, rfl⟩ := Option.map_eq_some_iff.mp hc
      exact .getUnsatisfiedTarget _ _
  | post =>
    rw [stepRunning] at h
    split_ifs at h
    cases h
    exact .inr ⟨by rw [post_failed, hs], by rw [post_location, post_client]; exact .post _ _⟩
  | requestNewConnection =>
    obtain ⟨hl, rfl⟩ := fromLocation_eq h
    exact moves_worker hs hl rfl (.requestNewConnection _)
  | waitAsync =>
    obtain ⟨hl, rfl⟩ := fromLocation_eq h
    unfold waitAsync
    split_ifs <;> exact moves_worker hs hl rfl (.waitAsync _)
  | wake =>
    rw [stepRunning] at h
    split_ifs at h
    obtain ⟨hl, rfl⟩ := fromLocation_eq h
    exact moves_worker hs hl rfl (.wake _)
  | finish connection transfer elapsed =>
    rw [stepRunning] at h
    split_ifs at h
    obtain ⟨hl, rfl⟩ := fromLocation_eq h
    exact moves_worker hs hl rfl (.finish _ _ _ _)
  | timeout elapsed =>
    obtain ⟨hl, rfl⟩ := fromLocation_eq h
    exact moves_worker hs hl rfl (.timeout _ _)
  | checkStop =>
    obtain ⟨hl, rfl⟩ := fromLocation_eq h
    exact moves_worker hs hl rfl (.checkStop _)
  | sweep => exact goes_worker hs h (.inl rfl)
  | processConnections => exact goes_worker hs h (.inr (.inl rfl))
  | processCancels => exact goes_worker hs h (.inr (.inr rfl))
  | cancelEverything =>
    obtain ⟨hl, rfl⟩ := fromLocation_eq h
    exact moves_worker hs hl rfl (.cancelEverything _)

end System

/-! ### The invariant -/

/-- The id that `addNewRequest` gives to a request. -/
def requestIdOf (object : Nat) : UInt32 := UInt32.ofNat (object + 1)

/-- What holds between two steps. -/
structure Inv (l : Location) (c : Client ρ δ) : Prop where
  account : ∀ object, (c.held.map Prod.fst).count object + outcomes object c.calls = if object < c.created then 1 else 0
  ids : ∀ k ∈ c.held, k.2 = requestIdOf k.1
  counter : c.requestIdCounter = UInt32.ofNat c.created
  stopped : l = .shutdown ∨ l = .returned → c.stop = true
  running : l ≠ .returned → c.NoNull ∧ ∀ conn ∈ c.connections, conn.Settled
  returned : l = .returned → c.held = []

namespace Inv

omit [RequestClass ρ] [InflateClass δ]

theorem of_accounts (h : Inv l c) (haccounts : Accounts c c')
    (hstopped : l' = .shutdown ∨ l' = .returned → c'.stop = true)
    (hrunning : l' ≠ .returned → c'.NoNull ∧ ∀ conn ∈ c'.connections, conn.Settled)
    (hreturned : l' = .returned → c'.held = []) : Inv l' c' := by
  obtain ⟨calls, hcalls, htransfers⟩ := haccounts.account
  refine ⟨?_, ?_, ?_, hstopped, hrunning, hreturned⟩
  · intro object
    have hbefore := h.account object
    have hstep := htransfers.balance object
    rw [hcalls, outcomes_append, haccounts.created]
    omega
  · intro k hk
    exact h.ids k (htransfers.mem k hk)
  · rw [haccounts.requestIdCounter, haccounts.created, h.counter]

theorem of_same {c : Client ρ δ} (h : Inv l c) (hl : l ≠ .returned) (hl' : l' ≠ .returned)
    (hstopped : l' = .shutdown → c.stop = true) : Inv l' c :=
  h.of_accounts (.of_eq rfl rfl rfl rfl) (fun h' => h'.elim hstopped fun hr => absurd hr hl') (fun _ => h.running hl)
    fun hr => absurd hr hl'

theorem create : Inv .notify (Client.create : Client ρ δ) := by
  refine ⟨by simp [Client.create, held, heldBy, queue], by simp [Client.create, held, heldBy, queue], rfl, by simp, ?_,
    by simp⟩
  intro _
  exact ⟨rfl, by simp [Client.create]⟩

theorem addNewConnection {l : Location} {c : Client ρ δ} (h : Inv l c) (name : Name) (scheme : Bytes) :
    Inv l (c.addNewConnection name scheme) := by
  have hheld := held_addNewConnection name scheme c
  refine h.of_accounts (.of_eq rfl rfl rfl hheld) h.stopped ?_ (fun hl => hheld.trans (h.returned hl))
  intro hl
  refine ⟨(h.running hl).1, ?_⟩
  intro conn hconn
  rcases List.mem_append.mp hconn with hconn | hconn
  · exact (h.running hl).2 conn hconn
  · rw [List.mem_singleton] at hconn
    subst hconn
    exact ⟨⟨fun _ => rfl, by simp [ClientConnection.create], by simp [ClientConnection.create]⟩, .inl rfl,
      show (0 : UInt32) ≤ 30000 by decide⟩

theorem addNewRequest {l : Location} {c : Client ρ δ} (h : Inv l c) (data : ρ) : Inv l (c.addNewRequest data) := by
  have hcounter : c.requestIdCounter + 1 = requestIdOf c.created := by
    rw [h.counter, requestIdOf, UInt32.ofNat_add]
    rfl
  have hnew : ∀ object, (if object < c.created then 1 else 0) + (if c.created = object then 1 else 0) =
      if object < c.created + 1 then 1 else 0 := by
    intro object
    split_ifs <;> omega
  obtain ⟨r, hr⟩ : ∃ r : ClientRequest ρ, r = ⟨c.created, c.requestIdCounter + 1, data⟩ := ⟨_, rfl⟩
  have hkey : r.key = (c.created, requestIdOf c.created) := by rw [hr, ← hcounter]; rfl
  unfold Client.addNewRequest
  simp only [← hr]
  split_ifs with hstop
  · refine ⟨?_, h.ids, hcounter, h.stopped, h.running, h.returned⟩
    intro object
    have hone : outcomes object [Client.failure .cancelled operationCancelled r] =
        if c.created = object then 1 else 0 := by
      simp [outcomes, Client.failure, Callback.isTerminal, hr]
    show (c.held.map Prod.fst).count object + outcomes object (c.calls ++ _) = _
    rw [outcomes_append, hone, ← Nat.add_assoc, h.account, hnew]
    rfl
  · have hl : l ≠ .returned := fun hl => hstop (h.stopped (.inr hl))
    have hrequests : c.requests ++ [some r] = (c.queue ++ [r]).map some := by
      rw [List.map_append, ← (h.running hl).1]
      rfl
    have hheld : heldBy c.connections { c with
        requests := c.requests ++ [some r], requestIdCounter := c.requestIdCounter + 1, created := c.created + 1,
        needNewConnection := true } = c.held ++ [r.key] := by
      rw [heldBy, queue_of_requests hrequests, held, heldBy, List.map_append, ← List.append_assoc]
      rfl
    refine ⟨?_, ?_, hcounter, h.stopped, fun _ => ⟨noNull_of_requests hrequests, (h.running hl).2⟩,
      fun hl' => absurd hl' hl⟩
    · intro object
      have hone : ([r.key].map Prod.fst).count object = if c.created = object then 1 else 0 := by
        simp [hkey, List.count_singleton]
      rw [held, hheld, List.map_append, List.count_append, hone, Nat.add_right_comm]
      show (c.held.map Prod.fst).count object + outcomes object c.calls + _ = _
      rw [h.account, hnew]
    · intro k hk
      rw [held, hheld, List.mem_append, List.mem_singleton] at hk
      rcases hk with hk | rfl
      · exact h.ids k hk
      · rw [hkey]

theorem cancelRequest {l : Location} (h : Inv l c) {id : UInt32} {deferred : Bool}
    (hcancel : c.cancelRequest id = some (deferred, c')) : Inv l c' := by
  have haccounts := accounts_cancelRequest hcancel
  have hreturned : l = .returned → c'.held = [] := by
    intro hl
    obtain ⟨calls, -, htransfers⟩ := haccounts.account
    refine List.eq_nil_iff_forall_not_mem.mpr fun k hk => ?_
    have hmem := htransfers.mem k hk
    rw [h.returned hl] at hmem
    cases hmem
  have hnoNull : c.NoNull → c'.NoNull := noNull_cancelRequest hcancel
  obtain rfl | ⟨r, pre, post, -, rfl⟩ := cancelRequest_cases hcancel
  · exact h.of_accounts haccounts h.stopped h.running hreturned
  · exact h.of_accounts haccounts h.stopped (fun hl => ⟨hnoNull (h.running hl).1, (h.running hl).2⟩) hreturned

theorem transferred {c : Client ρ δ} (h : Inv l c) (hl : l ≠ .returned) (hl' : l' ≠ .returned)
    (hstopped : l' ≠ .shutdown) (connection : Nat) (transfer : Transfer) :
    Inv l' (c.transferred connection transfer) := by
  have hheld := held_transferred connection transfer c
  refine h.of_accounts (.of_eq rfl rfl rfl hheld) (fun h' => h'.elim (absurd · hstopped) (absurd · hl')) ?_
    fun hr => absurd hr hl'
  intro _
  refine ⟨(h.running hl).1, ?_⟩
  intro conn hconn
  obtain ⟨conn, hmem, rfl⟩ := List.mem_map.mp hconn
  split_ifs
  · exact apply_settled transfer ((h.running hl).2 conn hmem)
  · exact (h.running hl).2 conn hmem

end Inv

theorem Inv.served {l : Location} (h : Inv l c) (hl : l ≠ .returned) {p : Option AsyncOperation}
    {elapsed : UInt32} (hprocess : c.processConnections p elapsed = some c') :
    Served c.connections c'.connections c c' ∧ ∀ conn ∈ c'.connections, conn.Settled := by
  obtain ⟨hnoNull, hsettled⟩ := h.running hl
  exact (processConnections_spec p elapsed hnoNull fun conn hconn => (hsettled conn hconn).valid).of_eq hprocess

theorem Inv.processConnections (h : Inv l c) (hl : l ≠ .returned)
    (hl' : l' ≠ .returned) (hstopped : l' ≠ .shutdown) {p : Option AsyncOperation} {elapsed : UInt32}
    (hprocess : c.processConnections p elapsed = some c') : Inv l' c' := by
  obtain ⟨hserved, hsettled⟩ := h.served hl hprocess
  exact h.of_accounts hserved.accounts (fun h' => h'.elim (absurd · hstopped) (absurd · hl'))
    (fun _ => ⟨hserved.noNull, hsettled⟩) fun hr => absurd hr hl'

/-- **The invariant is kept** by every step that succeeds. -/
theorem Inv.moves (h : Inv l c) (hmove : Moves l c a l' c') :
    Inv l' c' := by
  cases hmove with
  | addNewConnection => exact h.addNewConnection _ _
  | addNewRequest => exact h.addNewRequest _
  | cancelRequest _ hcancel => exact h.cancelRequest hcancel
  | setNewConnectionProvider => exact h.of_accounts (.of_eq rfl rfl rfl rfl) h.stopped h.running h.returned
  | stop => exact h.of_accounts (.of_eq rfl rfl rfl rfl) (fun _ => rfl) h.running h.returned
  | cancelRequestsByTarget _ hcancel =>
    obtain ⟨haccounts, hnoNull, -⟩ := accounts_cancelRequestsByTarget hcancel
    obtain ⟨hconns, -, -, hstop⟩ := cancelRequestsByTarget_frame hcancel
    refine h.of_accounts haccounts (fun hl => hstop.trans (h.stopped hl)) ?_ ?_
    · intro hl
      rw [hconns]
      exact ⟨hnoNull, (h.running hl).2⟩
    · intro hl
      obtain ⟨calls, -, htransfers⟩ := haccounts.account
      rw [h.returned hl] at htransfers
      exact List.eq_nil_iff_forall_not_mem.mpr fun k hk => by cases htransfers.mem k hk
  | getUnsatisfiedTarget => exact h
  | post => exact h
  | requestNewConnection =>
    exact h.of_accounts (.of_eq rfl rfl rfl rfl) (by simp) (fun _ => h.running (by simp)) (by simp)
  | waitAsync => exact h.of_same (by simp) (by simp) (by simp)
  | sweep hprocess => exact h.processConnections (by simp) (by simp) (by simp) hprocess
  | wake => exact h.of_same (by simp) (by simp) (by simp)
  | finish => exact h.transferred (by simp) (by simp) (by simp) _ _
  | timeout => exact h.of_same (by simp) (by simp) (by simp)
  | checkStop =>
    by_cases hstop : c.stop = true
    · exact h.of_same (by simp) (by simp [hstop]) fun _ => hstop
    · exact h.of_same (by simp) (by simp [hstop]) (by simp [hstop])
  | processConnections hprocess => exact h.processConnections (by simp) (by simp) (by simp) hprocess
  | processCancels hcancels =>
    obtain ⟨hnoNull, hsettled⟩ := h.running (by simp)
    rw [processCancels_eq hsettled] at hcancels
    cases hcancels
    refine h.of_accounts (accounts_cancelled c c.cancels) (by simp) (fun _ => ⟨hnoNull, ?_⟩) (by simp)
    exact fun conn hconn => hsettled conn (List.mem_of_mem_filter hconn)
  | cancelEverything =>
    refine h.of_accounts (accounts_cancelEverything c) (fun _ => h.stopped (.inl rfl)) (by simp) fun _ => ?_
    exact held_cancelEverything c

theorem Inv.step {s s' : System ρ δ} (hstep : s.step a = some s') (h : Inv s.location s.client) :
    Inv s'.location s'.client := by
  obtain ⟨-, ⟨-, hl, hc, -⟩ | ⟨-, hmove⟩⟩ := System.step_cases hstep
  · rw [hl, hc]
    exact h
  · exact h.moves hmove

/-! ### Null entries -/

/-- A request that can be restarted once, as `ManagedGetRequest` of `manager.cpp`. -/
structure GetRequest where
  host : Bytes
  headerSent : Bool
  restarted : Bool

instance : RequestClass GetRequest where
  getName r := ⟨r.host, lit "80"⟩
  getScheme _ := lit "http"
  isHeadRequest _ := false
  getRequestData r := if r.headerSent then ([], r) else (lit "GET / HTTP/1.1\r\n\r\n", { r with headerSent := true })
  restart r := if r.restarted then (false, r) else (true, { r with restarted := true, headerSent := false })
  handleResponseHeader r _ := r
  handleResponseData r _ := r

/-- `InflateTransform` without zlib. -/
instance : InflateClass Unit where
  create _ := .error (some (lit "inflate"))
  handleData _ _ := ([], .ok ())

/-- A request is added, then the client is stopped and `run()` returns. -/
def stoppedRun : List (Act GetRequest) :=
  [.addNewRequest ⟨lit "h", false, false⟩, .stop, .post, .requestNewConnection, .waitAsync, .sweep, .wake, .checkStop,
    .cancelEverything]

theorem Inv.not_fails {l : Location} {c : Client ρ δ} (h : Inv l c) (hnoNull : c.NoNull)
    (hfails : Fails l c a) : False := by
  have hrequests : c.requests = c.queue.map some := hnoNull
  have hprocess : l ≠ .returned → ∀ p elapsed, c.processConnections p elapsed ≠ none := by
    intro hl p elapsed hnone
    obtain ⟨c', hc', -⟩ :=
      processConnections_spec p elapsed hnoNull fun conn hconn => ((h.running hl).2 conn hconn).valid
    cases hnone.symm.trans hc'
  cases hfails with
  | cancelRequest _ hcancel =>
    unfold Client.cancelRequest at hcancel
    rw [hrequests] at hcancel
    rcases takeFirst_cases (fun r => r.requestId = _) c.queue with ⟨-, htake⟩ | ⟨r, pre, post, -, -, -, htake⟩ <;>
      rw [htake] at hcancel <;> cases hcancel
  | cancelRequestsByTarget _ hcancel =>
    unfold Client.cancelRequestsByTarget at hcancel
    rw [hrequests, cancelTargets_map] at hcancel
    cases hcancel
  | getUnsatisfiedTarget _ htarget =>
    unfold Client.getUnsatisfiedTarget at htarget
    rw [hrequests] at htarget
    exact unsatisfiedTarget_map_ne_none _ _ htarget
  | sweep hnone => exact hprocess (by simp) _ _ hnone
  | processConnections hnone => exact hprocess (by simp) _ _ hnone
  | processCancels hnone =>
    rw [processCancels_eq (h.running (by simp)).2] at hnone
    cases hnone

theorem noNull_of_moves (h : Inv l c) (hnoNull : c.NoNull)
    (hmove : Moves l c a l' c') (hend : a = .cancelEverything → c.requests = []) : c'.NoNull := by
  have hinv := h.moves hmove
  by_cases hl' : l' = .returned
  · cases hmove with
    | addNewRequest =>
      have hstop : c.stop = true := h.stopped (.inr hl')
      simp only [Client.addNewRequest, hstop, if_true]
      exact hnoNull
    | cancelRequest _ hcancel => exact noNull_cancelRequest hcancel hnoNull
    | cancelRequestsByTarget _ hcancel => exact (accounts_cancelRequestsByTarget hcancel).2.1
    | cancelEverything => simp [noNull_iff, Client.cancelEverything, hend rfl]
    | addNewConnection => exact hnoNull
    | setNewConnectionProvider => exact hnoNull
    | stop => exact hnoNull
    | getUnsatisfiedTarget => exact hnoNull
    | post => exact hnoNull
    | checkStop => exact hnoNull
    | _ => cases hl'
  · exact (hinv.running hl').1

/-- **Null entries.** In a run no entry of `m_requests` is ever null, and nothing dereferences null, exactly if the
queue is empty when the end of `run()` cancels everything. -/
theorem queue_noNull_iff (acts : List (Act ρ)) :
    (∀ t ∈ Run.trace System.step (System.create : System ρ δ) acts,
        t.post.failed = false ∧ none ∉ t.post.client.requests) ↔
      ∀ t ∈ Run.trace System.step (System.create : System ρ δ) acts,
        t.act = .cancelEverything → t.pre.client.requests = [] := by
  refine Run.forall_post_iff
    (I := fun s : System ρ δ => Inv s.location s.client ∧ s.failed = false ∧ none ∉ s.client.requests)
    (G := fun s : System ρ δ => s.failed = false ∧ none ∉ s.client.requests)
    (C := fun s a => a = .cancelEverything → s.client.requests = []) And.right ?_ ?_ ?_ acts
  · intro s a s' hstep ⟨hinv, hrunning, hnoNull⟩ hend
    obtain ⟨-, ⟨-, -, -, hfails⟩ | ⟨hrunning', hmove⟩⟩ := System.step_cases hstep
    · exact (hinv.not_fails (noNull_iff.mpr hnoNull) hfails).elim
    · exact ⟨hinv.moves hmove, hrunning', noNull_iff.mp (noNull_of_moves hinv (noNull_iff.mpr hnoNull) hmove hend)⟩
  · intro s a s' hstep ⟨hinv, hrunning, hnoNull⟩ hend ⟨hrunning', hnoNull'⟩
    rw [Classical.not_imp] at hend
    obtain ⟨rfl, hrequests⟩ := hend
    obtain ⟨-, ⟨hfailed, -⟩ | ⟨-, hmove⟩⟩ := System.step_cases hstep
    · rw [hrunning'] at hfailed
      cases hfailed
    · generalize s.location = l, s'.location = l', s.client = c, s'.client = c' at hmove hrequests hnoNull'
      cases hmove
      obtain ⟨x, requests, hx⟩ := List.exists_cons_of_ne_nil hrequests
      simp [Client.cancelEverything, hx] at hnoNull'
  · exact ⟨Inv.create, rfl, by simp [System.create, Client.create]⟩

/-- Another thread calls `cancelRequest` after `run()` has returned with a request in the queue. -/
theorem shutdown_leaves_null :
    ¬∀ t ∈ Run.trace System.step (System.create : System GetRequest Unit) (stoppedRun ++ [.cancelRequest 1]),
      t.post.failed = false ∧ none ∉ t.post.client.requests := by
  have hne : Run.trace System.step (System.create : System GetRequest Unit) (stoppedRun ++ [.cancelRequest 1]) ≠ [] :=
    List.ne_nil_of_length_pos (by decide)
  intro h
  have hfailed : true = false := (h _ (List.getLast_mem hne)).1
  cases hfailed

end Afl.Net.Http
