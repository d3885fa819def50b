import Mathlib.Data.List.Perm.Basic
import Afl.Net.Http.ClientRuns

/-!
# Callbacks that call the client

`m_mutex` is recursive, so a callback of a request may call the client that is just calling it. `Reentrant` takes the
functions that make callbacks apart: a callback is open from one step to the step that returns from it, and in between
its thread, which holds the mutex, may call any function again. The worker takes one turn of a loop at a time. What a
callback does inside `handleEvent` comes after `handleEvent` here, whose rest touches the fields of the connection only.
-/

namespace Afl.Net.Http

open Client

variable {ρ δ : Type}

/-! ### The steps -/

/-- The loops over `m_requests`: the first request from index `i` on that satisfies `p`, with its index; `none` if the
loop meets a null entry. -/
def searchFrom (p : ClientRequest ρ → Bool) :
    Nat → List (Option (ClientRequest ρ)) → Option (Option (Nat × ClientRequest ρ))
  | _, [] => some none
  | _, none :: _ => none
  | i, some r :: requests => if p r then some (some (i, r)) else searchFrom p (i + 1) requests

/-- A call that waits for the `handleFailure` it has made, with the variables it goes on with. -/
inductive Suspended
  | addNewRequest
  | cancelRequest (i : Nat)
  | cancelRequestsByTarget (reqIndex : Nat) (name : Name) (scheme : Bytes) (reason : FailureReason) (message : Bytes)

/-- The index it erases then. -/
def Suspended.mark : Suspended → Option Nat
  | addNewRequest => none
  | cancelRequest i => some i
  | cancelRequestsByTarget reqIndex _ _ _ _ => some reqIndex

/-- Where the worker is in a loop that holds the mutex: `processConnections` before and after `handleEvent`,
`processCancels`, and the two loops at the end of `run()`. -/
inductive Turn
  | serving (p : Option AsyncOperation) (elapsed : UInt32) (i : Nat)
  | served (p : Option AsyncOperation) (elapsed : UInt32) (i : Nat)
  | cancelling (i : Nat)
  | requests (i : Nat)
  | connections (i : Nat)
deriving DecidableEq

/-- The system, the loop the worker is in, and the calls that wait for a callback from the innermost one out. -/
structure Reentrant (ρ δ : Type) where
  system : System ρ δ
  turn : Option Turn
  suspended : List Suspended

/-- A step of the system, a turn of the worker's loop, or the return of the innermost callback. -/
inductive Progress (ρ : Type)
  | act (a : Act ρ)
  | turn
  | ret

namespace Reentrant

def create : Reentrant ρ δ := ⟨.create, none, []⟩

def client (s : Reentrant ρ δ) : Client ρ δ := s.system.client

def withClient (s : Reentrant ρ δ) (c : Client ρ δ) : Reentrant ρ δ :=
  { s with system := { s.system with client := c } }

def fail (s : Reentrant ρ δ) : Reentrant ρ δ := { s with system := { s.system with failed := true } }

/-- `handleFailure` is called, and the caller waits. -/
def calling (reason : FailureReason) (message : Bytes) (r : ClientRequest ρ) (f : Suspended) (s : Reentrant ρ δ) :
    Reentrant ρ δ :=
  { s.withClient (s.client.record [failure reason message r]) with suspended := f :: s.suspended }

def addNewRequest (data : ρ) (s : Reentrant ρ δ) : Reentrant ρ δ :=
  let t := { s with system := { s.system with client := s.client.addNewRequest data }.postLater }
  if s.client.stop then { t with suspended := .addNewRequest :: s.suspended } else t

def cancelRequest (id : UInt32) (s : Reentrant ρ δ) : Reentrant ρ δ :=
  match searchFrom (fun r => r.requestId = id) 0 s.client.requests with
  | none => s.fail
  | some none =>
    { s with system := { s.system with client := { s.client with cancels := s.client.cancels ++ [id] } }.post }
  | some (some (i, r)) => s.calling .cancelled operationCancelled r (.cancelRequest i)

/-- `m_requests.erase(m_requests.begin() + i)`. -/
def erase (i : Nat) (next : Reentrant ρ δ → Reentrant ρ δ) (s : Reentrant ρ δ) : Reentrant ρ δ :=
  if i < s.client.requests.length then next (s.withClient { s.client with requests := s.client.requests.eraseIdx i })
  else s.fail

/-- The worker enters a loop. It waits for the mutex first. -/
def enter (location : Location) (turn : Turn) (s : Reentrant ρ δ) : Option (Reentrant ρ δ) :=
  if s.system.location = location ∧ s.turn = none ∧ s.suspended = [] then some { s with turn := some turn } else none

def goOn (turn : Turn) (s : Reentrant ρ δ) : Reentrant ρ δ := { s with turn := some turn }

/-- The worker leaves the loop. -/
def leave (location : Location) (s : Reentrant ρ δ) : Reentrant ρ δ :=
  { s with system := s.system.goto location, turn := none }

section

variable [RequestClass ρ]

/-- The loop of `cancelRequestsByTarget` from `reqIndex` on, up to the next callback. -/
def cancelTargets (reqIndex : Nat) (name : Name) (scheme : Bytes) (reason : FailureReason) (message : Bytes)
    (s : Reentrant ρ δ) : Reentrant ρ δ :=
  match searchFrom (isTarget name scheme) reqIndex (s.client.requests.drop reqIndex) with
  | none => s.fail
  | some none => s
  | some (some (i, r)) => s.calling reason message r (.cancelRequestsByTarget i name scheme reason message)

/-- The innermost callback returns. -/
def ret (s : Reentrant ρ δ) : Option (Reentrant ρ δ) :=
  match s.suspended with
  | [] => none
  | .addNewRequest :: suspended => some { s with suspended := suspended }
  | .cancelRequest i :: suspended => some ({ s with suspended := suspended }.erase i id)
  | .cancelRequestsByTarget reqIndex name scheme reason message :: suspended =>
    some ({ s with suspended := suspended }.erase reqIndex (cancelTargets reqIndex name scheme reason message))

variable [InflateClass δ]

/-- `handleEvent` on connection `i`. -/
def serve (p : Option AsyncOperation) (elapsed : UInt32) (i : Nat) (s : Reentrant ρ δ) : Reentrant ρ δ :=
  match s.client.connections[i]? with
  | none => s.leave (if s.system.location = .sweep then .wait else .notify)
  | some conn =>
    match conn.handleEvent p elapsed with
    | none => s.fail
    | some w =>
      (s.withClient ({ s.client with connections := s.client.connections.set i w.conn }.record w.calls)).goOn
        (.served p elapsed i)

/-- The connection waits for a request. -/
def assign (p : Option AsyncOperation) (elapsed : UInt32) (i : Nat) (conn : ClientConnection ρ δ)
    (s : Reentrant ρ δ) : Reentrant ρ δ :=
  match s.client.extractMatchingRequest conn with
  | none => s.fail
  | some (none, _) => s.goOn (.serving p elapsed (i + 1))
  | some (some req, c) =>
    match conn.setNewRequest req with
    | none => s.fail
    | some conn => (s.withClient { c with connections := c.connections.set i conn }).goOn (.serving p elapsed i)

/-- The connection wants to close. -/
def close (p : Option AsyncOperation) (elapsed : UInt32) (i : Nat) (conn : ClientConnection ρ δ)
    (s : Reentrant ρ δ) : Reentrant ρ δ :=
  match conn.extractRequest with
  | none => s.fail
  | some (req, _) =>
    (s.withClient { putBack req s.client with
      needNewConnection := true, connections := s.client.connections.eraseIdx i }).goOn (.serving p elapsed i)

/-- The `switch` on the result of `handleEvent`. -/
def dispatch (p : Option AsyncOperation) (elapsed : UInt32) (i : Nat) (s : Reentrant ρ δ) : Option (Reentrant ρ δ) := do
  let conn ← s.client.connections[i]?
  match conn.action with
  | .waitForRequest => some (s.assign p elapsed i conn)
  | .transferring => some (s.goOn (.serving p elapsed (i + 1)))
  | .shutdown => some (s.close p elapsed i conn)

/-- The end of `processCancels`, and `wakeActive = false` after it. -/
def cancelsDone (s : Reentrant ρ δ) : Reentrant ρ δ :=
  ({ s with system := { s.system with
    client := { s.client with cancels := [] }, wakeActive := false } }).leave .notify

/-- A turn of the loop of `processCancels`. -/
def cancelTurn (i : Nat) (s : Reentrant ρ δ) : Reentrant ρ δ :=
  match s.client.connections[i]? with
  | none => s.cancelsDone
  | some conn =>
    match processCancel s.client.cancels conn with
    | none => s.fail
    | some (none, calls) =>
      (s.withClient ({ s.client with connections := s.client.connections.eraseIdx i }.record calls)).goOn
        (.cancelling i)
    | some (some conn, calls) =>
      (s.withClient ({ s.client with connections := s.client.connections.set i conn }.record calls)).goOn
        (.cancelling (i + 1))

/-- A turn of the loop that cancels the pending requests. -/
def requestTurn (i : Nat) (s : Reentrant ρ δ) : Reentrant ρ δ :=
  match s.client.requests[i]? with
  | none => s.goOn (.connections 0)
  | some none => s.goOn (.requests (i + 1))
  | some (some r) =>
    (s.withClient ({ s.client with requests := s.client.requests.set i none }.record
      [failure .cancelled operationCancelled r])).goOn (.requests (i + 1))

/-- A turn of the loop that cancels the requests being worked on. -/
def connectionTurn (i : Nat) (s : Reentrant ρ δ) : Reentrant ρ δ :=
  match s.client.connections[i]? with
  | none => s.leave .returned
  | some conn =>
    let w := ClientConnection.cancel ⟨conn, []⟩
    (s.withClient ({ s.client with connections := s.client.connections.set i w.conn }.record w.calls)).goOn
      (.connections (i + 1))

/-- The worker goes on, its callbacks having returned. -/
def nextTurn (s : Reentrant ρ δ) : Option (Reentrant ρ δ) :=
  if s.suspended = [] then
    match s.turn with
    | none => none
    | some (.serving p elapsed i) => some (s.serve p elapsed i)
    | some (.served p elapsed i) => s.dispatch p elapsed i
    | some (.cancelling i) => some (s.cancelTurn i)
    | some (.requests i) => some (s.requestTurn i)
    | some (.connections i) => some (s.connectionTurn i)
  else none

/-- A step of the system. The steps of the worker that hold the mutex wait for it, and its loops are only entered. -/
def act (s : Reentrant ρ δ) : Act ρ → Option (Reentrant ρ δ)
  | .addNewRequest data => some (s.addNewRequest data)
  | .cancelRequest id => some (s.cancelRequest id)
  | .cancelRequestsByTarget name scheme reason message => some (s.cancelTargets 0 name scheme reason message)
  | .sweep => s.enter .sweep (.serving none 0 0)
  | .processConnections =>
    match s.system.location with
    | .event p elapsed => s.enter (.event p elapsed) (.serving p elapsed 0)
    | _ => none
  | .processCancels => do
    let t ← s.enter .cancels (.cancelling 0)
    some (if t.client.cancels = [] then t.cancelsDone else t)
  | .cancelEverything => s.enter .shutdown (.requests 0)
  | .requestNewConnection =>
    if s.suspended = [] then (s.system.step .requestNewConnection).map fun t => { s with system := t } else none
  | a => (s.system.step a).map fun t => { s with system := t }

def step (s : Reentrant ρ δ) (a : Progress ρ) : Option (Reentrant ρ δ) :=
  if s.system.failed then none
  else
    match a with
    | .act a => s.act a
    | .turn => s.nextTurn
    | .ret => s.ret

end

end Reentrant

/-! ### Erasing later -/

theorem eraseIdx_eraseIdx {α : Type} (l : List α) {m i : Nat} (h : m < i) :
    (l.eraseIdx m).eraseIdx (i - 1) = (l.eraseIdx i).eraseIdx m := by
  induction l generalizing m i with
  | nil => simp
  | cons x l ih =>
    obtain ⟨i, rfl⟩ := Nat.exists_eq_succ_of_ne_zero (Nat.ne_of_gt (Nat.zero_lt_of_lt h))
    cases m with
    | zero => simp
    | succ m =>
      obtain ⟨j, rfl⟩ := Nat.exists_eq_succ_of_ne_zero (Nat.ne_of_gt (Nat.zero_lt_of_lt (Nat.succ_lt_succ_iff.mp h)))
      simpa using ih (Nat.succ_lt_succ_iff.mp h)

/-- The list without the elements at decreasing indexes. -/
def eraseMarks {α : Type} (l : List α) (marks : List Nat) : List α := marks.foldl List.eraseIdx l

theorem eraseMarks_cons {α : Type} (l : List α) (i : Nat) (marks : List Nat) :
    eraseMarks l (i :: marks) = eraseMarks (l.eraseIdx i) marks := rfl

theorem eraseMarks_perm {α : Type} {l : List α} {marks : List Nat} {i : Nat} {x : α}
    (hmarks : marks.Pairwise (· > ·)) (hi : ∀ m ∈ marks, m < i) (hx : l[i]? = some x) :
    (eraseMarks l marks).Perm (x :: eraseMarks (l.eraseIdx i) marks) := by
  induction marks generalizing l i with
  | nil =>
    obtain ⟨hlt, rfl⟩ := List.getElem?_eq_some_iff.mp hx
    exact (List.getElem_cons_eraseIdx_perm hlt).symm
  | cons m marks ih =>
    rw [List.pairwise_cons] at hmarks
    rw [List.forall_mem_cons] at hi
    have hnext : (l.eraseIdx m)[i - 1]? = some x := by
      rw [List.getElem?_eraseIdx_of_ge (by omega), Nat.sub_add_cancel (by omega), hx]
    rw [eraseMarks_cons, eraseMarks_cons, ← eraseIdx_eraseIdx l hi.1]
    exact ih hmarks.2 (fun k hk => by have := hmarks.1 k hk; omega) hnext

theorem eraseMarks_append {α : Type} {l : List α} {marks : List Nat} (hmarks : marks.Pairwise (· > ·))
    (hinside : ∀ m ∈ marks, m < l.length) (more : List α) :
    eraseMarks (l ++ more) marks = eraseMarks l marks ++ more := by
  induction marks generalizing l with
  | nil => rfl
  | cons m marks ih =>
    rw [List.pairwise_cons] at hmarks
    rw [List.forall_mem_cons] at hinside
    rw [eraseMarks_cons, eraseMarks_cons, List.eraseIdx_append_of_lt_length hinside.1]
    refine ih hmarks.2 ?_
    intro k hk
    have hlt := hmarks.1 k hk
    rw [List.length_eraseIdx_of_lt hinside.1]
    omega

/-! ### The invariant -/

namespace Reentrant

theorem searchFrom_found {p : ClientRequest ρ → Bool} {n i : Nat} {requests : List (Option (ClientRequest ρ))}
    {r : ClientRequest ρ} (h : searchFrom p n requests = some (some (i, r))) :
    n ≤ i ∧ requests[i - n]? = some (some r) ∧ ∃ q, requests.head? = some (some q) := by
  induction requests generalizing n with
  | nil => cases h
  | cons x requests ih =>
    rcases x with _ | q
    · cases h
    · rw [searchFrom] at h
      split_ifs at h with hp
      · cases h
        exact ⟨Nat.le_refl _, by simp, _, rfl⟩
      · obtain ⟨hle, hget, -⟩ := ih h
        refine ⟨by omega, ?_, q, rfl⟩
        rw [show i - n = i - (n + 1) + 1 by omega, List.getElem?_cons_succ, hget]

/-- The indexes that the waiting calls erase. -/
def marks (s : Reentrant ρ δ) : List Nat := s.suspended.filterMap Suspended.mark

/-- The client once the waiting calls have erased their requests. -/
def rest (s : Reentrant ρ δ) : Client ρ δ :=
  { s.client with requests := eraseMarks s.client.requests s.marks }

/-- The requests of the connections. -/
def keys (s : Reentrant ρ δ) : List (Option Key) := s.client.connections.map ClientConnection.key

/-- The end of `run()` has emptied the first `n` slots of the queue. -/
def Cleared (s : Reentrant ρ δ) (n : Nat) : Prop :=
  (∀ x ∈ s.client.requests.take n, x = none) ∧ (0 < n → s.marks = [])

/-- The end of `run()` has emptied the queue. -/
def Emptied (s : Reentrant ρ δ) : Prop := s.Cleared (s.client.requests.length + 1)

/-- What holds in a loop of the worker. -/
def InLoop (s : Reentrant ρ δ) : Turn → Prop
  | .serving _ _ _ => s.system.location = .sweep ∨ ∃ p elapsed, s.system.location = .event p elapsed
  | .served _ _ _ => s.system.location = .sweep ∨ ∃ p elapsed, s.system.location = .event p elapsed
  | .cancelling _ => s.system.location = .cancels
  | .requests i => s.system.location = .shutdown ∧ s.Cleared i
  | .connections i => s.system.location = .shutdown ∧ s.Emptied ∧ ∀ k ∈ s.keys.take i, k = none

/-- Each request added is held once or has had its final callback. -/
def Account (s : Reentrant ρ δ) : Prop :=
  ∀ object, (s.rest.held.map Prod.fst).count object + outcomes object s.client.calls =
    if object < s.client.created then 1 else 0

/-- What holds between two steps. -/
structure Kept (s : Reentrant ρ δ) : Prop where
  account : s.Account
  valid : ∀ conn ∈ s.client.connections, conn.Valid
  decreasing : s.marks.Pairwise (· > ·)
  inside : ∀ m ∈ s.marks, m < s.client.requests.length
  stopped : s.system.location = .shutdown ∨ s.system.location = .returned → s.client.stop = true
  loop : ∀ turn, s.turn = some turn → s.InLoop turn
  returned : s.system.location = .returned → s.Emptied ∧ ∀ k ∈ s.keys, k = none

theorem Account.of_transfers {s s' : Reentrant ρ δ} (h : s.Account) {calls : Calls}
    (hcreated : s'.client.created = s.client.created) (hcalls : s'.client.calls = s.client.calls ++ calls)
    (htransfers : Transfers s.rest.held calls s'.rest.held) : s'.Account := by
  intro object
  have hbefore := h object
  have hstep := htransfers.balance object
  rw [hcalls, outcomes_append, hcreated]
  omega

variable {s : Reentrant ρ δ}

theorem rest_of_nil (h : s.suspended = []) : s.rest = s.client := by
  simp [rest, marks, h, eraseMarks]

theorem marks_of_nil (h : s.suspended = []) : s.marks = [] := by
  simp [marks, h]

theorem held_eq_keys (s : Reentrant ρ δ) :
    s.rest.held = s.keys.filterMap id ++
      (eraseMarks s.client.requests s.marks).filterMap fun x => x.map ClientRequest.key := by
  simp [held, heldBy, rest, keys, queue, List.filterMap_map, List.map_filterMap]

/-- The worker is not in a critical section. -/
def Outside (l : Location) : Prop := l = .notify ∨ l = .arm ∨ l = .wait ∨ l = .woken

/-- A step that leaves the requests alone: location and client before and after. -/
structure Quiet (l : Location) (c : Client ρ δ) (l' : Location) (c' : Client ρ δ) : Prop where
  requests : c'.requests = c.requests
  calls : c'.calls = c.calls
  created : c'.created = c.created
  stop : c.stop = true → c'.stop = true
  keys : ∃ more, c'.connections.map ClientConnection.key = c.connections.map ClientConnection.key ++ more ∧
    ∀ k ∈ more, k = none
  valid : (∀ conn ∈ c.connections, conn.Valid) → ∀ conn ∈ c'.connections, conn.Valid
  location : l' = l ∨ Outside l ∧ l' ≠ .returned ∧ (l' = .shutdown → c'.stop = true)

theorem InLoop.not_outside {turn : Turn} (h : s.InLoop turn) : ¬Outside s.system.location := by
  cases turn with
  | serving => obtain hl | ⟨p, elapsed, hl⟩ := h <;> simp [Outside, hl]
  | served => obtain hl | ⟨p, elapsed, hl⟩ := h <;> simp [Outside, hl]
  | cancelling =>
    have hl : s.system.location = .cancels := h
    simp [Outside, hl]
  | requests => simp [Outside, h.1]
  | connections => simp [Outside, h.1]

theorem Quiet.of_eq {l : Location} {c c' : Client ρ δ} (hrequests : c'.requests = c.requests)
    (hcalls : c'.calls = c.calls) (hcreated : c'.created = c.created) (hstop : c'.stop = c.stop)
    (hconns : c'.connections = c.connections) : Quiet l c l c' :=
  ⟨hrequests, hcalls, hcreated, hstop.trans, ⟨[], by rw [hconns, List.append_nil], by simp⟩, fun h => hconns ▸ h,
    .inl rfl⟩

theorem Quiet.refl (l : Location) (c : Client ρ δ) : Quiet l c l c := .of_eq rfl rfl rfl rfl rfl

namespace Quiet

variable {s t : Reentrant ρ δ}

theorem inLoop (h : Quiet s.system.location s.client t.system.location t.client) (hmarks : t.marks = s.marks)
    (hlocation : t.system.location = s.system.location) {turn : Turn} (hs : s.InLoop turn) : t.InLoop turn := by
  cases turn with
  | serving => simpa only [InLoop, hlocation] using hs
  | served => simpa only [InLoop, hlocation] using hs
  | cancelling => simpa only [InLoop, hlocation] using hs
  | requests i => simpa only [InLoop, Cleared, hlocation, h.requests, hmarks] using hs
  | connections i =>
    obtain ⟨hl, hemptied, hkeys⟩ := hs
    obtain ⟨more, hmore, hnone⟩ := h.keys
    refine ⟨hlocation.trans hl, by simpa only [Emptied, Cleared, h.requests, hmarks] using hemptied, ?_⟩
    intro k hk
    rw [Reentrant.keys, hmore, List.take_append, List.mem_append] at hk
    exact hk.elim (hkeys k) fun hk => hnone k (List.mem_of_mem_take hk)

theorem held (h : Quiet s.system.location s.client t.system.location t.client) (hmarks : t.marks = s.marks) :
    t.rest.held = s.rest.held := by
  obtain ⟨more, hmore, hnone⟩ := h.keys
  have hmore' : more.filterMap id = [] := List.filterMap_eq_nil_iff.mpr fun k hk => hnone k hk
  rw [held_eq_keys, held_eq_keys, Reentrant.keys, hmore, h.requests, hmarks, List.filterMap_append, hmore',
    List.append_nil]
  rfl

end Quiet

theorem Kept.quiet {s t : Reentrant ρ δ} (h : Kept s)
    (hq : Quiet s.system.location s.client t.system.location t.client) (hmarks : t.marks = s.marks)
    (hturn : t.turn = s.turn) : Kept t := by
  refine ⟨?_, hq.valid h.valid, hmarks ▸ h.decreasing, ?_, ?_, ?_, ?_⟩
  · refine h.account.of_transfers hq.created (hq.calls.trans (List.append_nil _).symm) ?_
    rw [hq.held hmarks]
    exact .refl _
  · rw [hmarks, hq.requests]
    exact h.inside
  · intro hl
    rcases hq.location with hlocation | ⟨-, hreturned, hshutdown⟩
    · rw [hlocation] at hl
      exact hq.stop (h.stopped hl)
    · exact hl.elim hshutdown fun hl => absurd hl hreturned
  · intro turn hturn'
    rw [hturn] at hturn'
    rcases hq.location with hlocation | ⟨houtside, -⟩
    · exact hq.inLoop hmarks hlocation (h.loop turn hturn')
    · exact absurd houtside (h.loop turn hturn').not_outside
  · intro hl
    rcases hq.location with hlocation | ⟨-, hreturned, -⟩
    · obtain ⟨hemptied, hkeys⟩ := h.returned (hlocation.symm.trans hl)
      obtain ⟨more, hmore, hnone⟩ := hq.keys
      refine ⟨by simpa only [Emptied, Cleared, hq.requests, hmarks] using hemptied, ?_⟩
      rw [keys, hmore]
      intro k hk
      exact (List.mem_append.mp hk).elim (hkeys k) (hnone k)
    · exact absurd hl hreturned

/-- The end of `run()` has not begun to empty the queue. -/
def Unstarted (s : Reentrant ρ δ) : Prop :=
  (∀ i, s.turn = some (.requests i) → i = 0) ∧ (∀ i, s.turn ≠ some (.connections i)) ∧
    s.system.location ≠ .returned

variable {s' : Reentrant ρ δ}

namespace Kept

variable {s : Reentrant ρ δ}

theorem unstarted (h : Kept s) (hcleared : ∀ n, s.Cleared n → n = 0) : s.Unstarted :=
  ⟨fun _ hturn => hcleared _ (h.loop _ hturn).2,
    fun _ hturn => absurd (hcleared _ (h.loop _ hturn).2.1) (Nat.succ_ne_zero _),
    fun hl => absurd (hcleared _ (h.returned hl).1) (Nat.succ_ne_zero _)⟩

theorem unstarted_of_head (h : Kept s) {r : ClientRequest ρ} (hhead : s.client.requests.head? = some (some r)) :
    s.Unstarted := by
  refine h.unstarted fun n hn => ?_
  obtain ⟨requests, hrequests⟩ := List.head?_eq_some_iff.mp hhead
  cases n with
  | zero => rfl
  | succ n => simpa using hn.1 (some r) (by simp [hrequests])

theorem unstarted_of_mark (h : Kept s) {m : Nat} (hm : m ∈ s.marks) : s.Unstarted := by
  refine h.unstarted fun n hn => Nat.eq_zero_of_not_pos fun hpos => ?_
  rw [hn.2 hpos] at hm
  cases hm

theorem inLoop (h : Kept s) (hs : s.Unstarted) (hlocation : s'.system.location = s.system.location)
    (hturn : s'.turn = s.turn) (turn : Turn) (hturn' : s'.turn = some turn) : s'.InLoop turn := by
  rw [hturn] at hturn'
  have hloop := h.loop turn hturn'
  cases turn with
  | serving => simpa only [InLoop, hlocation] using hloop
  | served => simpa only [InLoop, hlocation] using hloop
  | cancelling => simpa only [InLoop, hlocation] using hloop
  | requests i =>
    obtain rfl := hs.1 i hturn'
    exact ⟨hlocation.trans hloop.1, by simp [Cleared]⟩
  | connections i => exact absurd hturn' (hs.2.1 i)

theorem fail (h : Kept s) : Kept s.fail := ⟨h.account, h.valid, h.decreasing, h.inside, h.stopped, h.loop, h.returned⟩

/-! ### Calls -/

/-- **A request is cancelled** that lies beyond the ones being cancelled. -/
theorem calling (h : Kept s) (hs : s.Unstarted) {i : Nat} {r : ClientRequest ρ}
    (hget : s.client.requests[i]? = some (some r)) (hbehind : ∀ m ∈ s.marks, m < i) (reason : FailureReason)
    (message : Bytes) {f : Suspended} (hf : f.mark = some i) : Kept (s.calling reason message r f) := by
  have hmarks : (s.calling reason message r f).marks = i :: s.marks := by
    rw [marks, Reentrant.calling, List.filterMap_cons, hf]
    rfl
  refine ⟨?_, h.valid, ?_, ?_, h.stopped, h.inLoop hs rfl rfl, fun hl => absurd hl hs.2.2⟩
  · have hend : Transfers [r.key] [failure reason message r] [] := Transfers.finish [r] rfl
    refine h.account.of_transfers rfl (Eq.refl (_ ++ [failure reason message r])) ?_
    refine (hend.frame (s.calling reason message r f).rest.held).perm ?_ (List.Perm.refl _)
    rw [held_eq_keys, held_eq_keys, hmarks, eraseMarks_cons]
    have hperm := (eraseMarks_perm h.decreasing hbehind hget).filterMap fun x => x.map ClientRequest.key
    exact (hperm.append_left _).trans List.perm_middle
  · rw [hmarks]
    exact List.pairwise_cons.mpr ⟨hbehind, h.decreasing⟩
  · rw [hmarks]
    exact List.forall_mem_cons.mpr ⟨(List.getElem?_eq_some_iff.mp hget).1, h.inside⟩

/-- **The callback returns** and the request is erased. -/
theorem erased (h : Kept s) {f : Suspended} {suspended : List Suspended} (hs : s.suspended = f :: suspended) {i : Nat}
    (hf : f.mark = some i) :
    ∃ t, Kept t ∧ t.Unstarted ∧ (∀ m ∈ t.marks, m < i) ∧
      ∀ next, { s with suspended := suspended }.erase i next = next t := by
  have hmarks : s.marks = i :: suspended.filterMap Suspended.mark := by
    rw [marks, hs, List.filterMap_cons, hf]
  have hunstarted : s.Unstarted := h.unstarted_of_mark (m := i) (by simp [hmarks])
  have hdecreasing := h.decreasing
  have hinside := h.inside
  rw [hmarks, List.pairwise_cons] at hdecreasing
  rw [hmarks, List.forall_mem_cons] at hinside
  let t : Reentrant ρ δ :=
    { s with suspended := suspended }.withClient { s.client with requests := s.client.requests.eraseIdx i }
  refine ⟨t, ⟨?_, h.valid, hdecreasing.2, ?_, h.stopped, h.inLoop hunstarted rfl rfl, ?_⟩, hunstarted, hdecreasing.1,
    fun _ => if_pos hinside.1⟩
  · refine h.account.of_transfers rfl (List.append_nil _).symm (Transfers.of_perm ?_)
    rw [held_eq_keys, held_eq_keys, hmarks]
    exact List.Perm.refl _
  · intro m hm
    have hlt : m < i := hdecreasing.1 m hm
    show m < (s.client.requests.eraseIdx i).length
    rw [List.length_eraseIdx_of_lt hinside.1]
    omega
  · exact fun hl => absurd hl hunstarted.2.2

end Kept

/-- The next request object. -/
def nextRequest (data : ρ) (s : Reentrant ρ δ) : ClientRequest ρ :=
  ⟨s.client.created, s.client.requestIdCounter + 1, data⟩

theorem addNewRequest_of_stop (hstop : s.client.stop = true) (data : ρ) :
    s.addNewRequest data =
      { s with
        system := { s.system with
          client := { s.client with
            requestIdCounter := s.client.requestIdCounter + 1, created := s.client.created + 1
            calls := s.client.calls ++ [failure .cancelled operationCancelled (s.nextRequest data)] }
          posting := s.system.posting + 1 }
        suspended := .addNewRequest :: s.suspended } := by
  have hstop' : s.system.client.stop = true := hstop
  simp [Reentrant.addNewRequest, Client.addNewRequest, nextRequest, Client.record, Reentrant.client, hstop',
    System.postLater]

theorem addNewRequest_of_not_stop (hstop : s.client.stop = false) (data : ρ) :
    s.addNewRequest data =
      { s with
        system := { s.system with
          client := { s.client with
            requestIdCounter := s.client.requestIdCounter + 1, created := s.client.created + 1
            requests := s.client.requests ++ [some (s.nextRequest data)], needNewConnection := true }
          posting := s.system.posting + 1 } } := by
  have hstop' : s.system.client.stop = false := hstop
  simp [Reentrant.addNewRequest, Client.addNewRequest, nextRequest, Reentrant.client, hstop', System.postLater]

namespace Kept

variable {s : Reentrant ρ δ}

theorem addNewRequest (h : Kept s) (data : ρ) : Kept (s.addNewRequest data) := by
  have hnew : ∀ object, (if object < s.client.created then 1 else 0) + (if s.client.created = object then 1 else 0) =
      if object < s.client.created + 1 then 1 else 0 := by
    intro object
    split_ifs <;> omega
  rcases hstop : s.client.stop with _ | _
  · have hlocation : ¬(s.system.location = .shutdown ∨ s.system.location = .returned) := by
      intro hl
      simp [h.stopped hl] at hstop
    rw [not_or] at hlocation
    have hunstarted : s.Unstarted :=
      ⟨fun _ hturn => absurd (h.loop _ hturn).1 hlocation.1, fun _ hturn => absurd (h.loop _ hturn).1 hlocation.1,
        hlocation.2⟩
    have ht := addNewRequest_of_not_stop hstop data
    generalize s.addNewRequest data = t at ht ⊢
    have hheld : t.rest.held = s.rest.held ++ [(s.nextRequest data).key] := by
      have happend := eraseMarks_append h.decreasing h.inside [some (s.nextRequest data)]
      have hrequests : t.client.requests = s.client.requests ++ [some (s.nextRequest data)] := by rw [ht]; rfl
      have hmarks : t.marks = s.marks := by rw [ht]; rfl
      have hkeys : t.keys = s.keys := by rw [ht]; rfl
      rw [held_eq_keys, held_eq_keys, hkeys, hmarks, hrequests, happend, List.filterMap_append, List.append_assoc]
      rfl
    refine ⟨?_, ?_, ?_, ?_, ?_, h.inLoop hunstarted ?_ ?_, ?_⟩
    · intro object
      have hone : ([(s.nextRequest data).key].map Prod.fst).count object =
          if s.client.created = object then 1 else 0 := by
        simp [nextRequest, ClientRequest.key, List.count_singleton]
      rw [hheld, List.map_append, List.count_append, hone, Nat.add_right_comm, ht]
      show _ + outcomes object s.client.calls + _ = _
      rw [h.account object, hnew]
      rfl
    · rw [ht]
      exact h.valid
    · rw [ht]
      exact h.decreasing
    · rw [ht]
      intro m hm
      exact Nat.lt_of_lt_of_le (h.inside m hm) (List.sublist_append_left _ _).length_le
    · rw [ht]
      exact fun hl => absurd hl (not_or.mpr hlocation)
    · rw [ht]
    · rw [ht]
    · rw [ht]
      exact fun hl => absurd hl hlocation.2
  · rw [addNewRequest_of_stop hstop]
    refine ⟨?_, h.valid, h.decreasing, h.inside, h.stopped, h.loop, h.returned⟩
    intro object
    have hone : outcomes object [failure .cancelled operationCancelled (s.nextRequest data)] =
        if s.client.created = object then 1 else 0 := by
      simp [outcomes, Client.failure, Callback.isTerminal, nextRequest]
    show (s.rest.held.map Prod.fst).count object + outcomes object (s.client.calls ++ _) = _
    rw [outcomes_append, hone, ← Nat.add_assoc, h.account, hnew]
    rfl

end Kept

/-- The request found lies behind the ones being cancelled. -/
def Behind (marks : List Nat) : Option (Option (Nat × ClientRequest ρ)) → Prop
  | some (some (i, _)) => ∀ m ∈ marks, m < i
  | _ => True

instance (marks : List Nat) : (found : Option (Option (Nat × ClientRequest ρ))) → Decidable (Behind marks found)
  | some (some (i, _)) => inferInstanceAs (Decidable (∀ m ∈ marks, m < i))
  | some none => isTrue trivial
  | none => isTrue trivial

section

variable [RequestClass ρ]

/-- The first request that a call cancels in the queue. -/
def found (s : Reentrant ρ δ) : Progress ρ → Option (Option (Nat × ClientRequest ρ))
  | .act (.cancelRequest id) => searchFrom (fun r => r.requestId = id) 0 s.client.requests
  | .act (.cancelRequestsByTarget name scheme _ _) => searchFrom (isTarget name scheme) 0 s.client.requests
  | _ => some none

/-- While `cancelRequest` or `cancelRequestsByTarget` waits for the callback of a request in the queue, no call of the
two cancels that request or one before it. -/
def Orderly (s : Reentrant ρ δ) (a : Progress ρ) : Prop := Behind s.marks (s.found a)

instance (s : Reentrant ρ δ) (a : Progress ρ) : Decidable (s.Orderly a) :=
  inferInstanceAs (Decidable (Behind s.marks (s.found a)))

namespace Kept

variable {s : Reentrant ρ δ}

omit [RequestClass ρ] in
theorem cancelRequest (h : Kept s) {id : UInt32}
    (hbehind : Behind s.marks (searchFrom (fun r => r.requestId = id) 0 s.client.requests)) :
    Kept (s.cancelRequest id) := by
  unfold Reentrant.cancelRequest
  rcases hfound : searchFrom (fun r => r.requestId = id) 0 s.client.requests with _ | _ | ⟨i, r⟩
  · exact h.fail
  · refine h.quiet ?_ rfl rfl
    simp only [client, System.post_client, System.post_location]
    exact .of_eq rfl rfl rfl rfl rfl
  · rw [hfound] at hbehind
    obtain ⟨-, hget, q, hhead⟩ := searchFrom_found hfound
    exact h.calling (h.unstarted_of_head hhead) hget hbehind _ _ rfl

theorem cancelTargets (h : Kept s) {reqIndex : Nat} {name : Name} {scheme : Bytes} {reason : FailureReason}
    {message : Bytes}
    (hbehind : Behind s.marks (searchFrom (isTarget name scheme) reqIndex (s.client.requests.drop reqIndex)))
    (hs : ∀ q, (s.client.requests.drop reqIndex).head? = some (some q) → s.Unstarted) :
    Kept (s.cancelTargets reqIndex name scheme reason message) := by
  unfold Reentrant.cancelTargets
  rcases hfound : searchFrom (isTarget name scheme) reqIndex (s.client.requests.drop reqIndex) with _ | _ | ⟨i, r⟩
  · exact h.fail
  · exact h
  · rw [hfound] at hbehind
    obtain ⟨hle, hget, q, hhead⟩ := searchFrom_found hfound
    rw [List.getElem?_drop, Nat.add_sub_of_le hle] at hget
    exact h.calling (hs q hhead) hget hbehind _ _ rfl

theorem ret (h : Kept s) (hret : s.ret = some s') : Kept s' := by
  unfold Reentrant.ret at hret
  rcases hsuspended : s.suspended with _ | ⟨f, suspended⟩ <;> rw [hsuspended] at hret
  · cases hret
  · cases f with
    | addNewRequest =>
      cases hret
      have hmarks : suspended.filterMap Suspended.mark = s.marks := by
        rw [marks, hsuspended]
        rfl
      exact h.quiet (.refl _ _) hmarks rfl
    | cancelRequest i =>
      cases hret
      obtain ⟨t, hkept, -, -, hnext⟩ := h.erased hsuspended rfl
      rw [hnext]
      exact hkept
    | cancelRequestsByTarget reqIndex name scheme reason message =>
      cases hret
      obtain ⟨t, hkept, hunstarted, hbefore, hnext⟩ := h.erased hsuspended rfl
      rw [hnext]
      refine hkept.cancelTargets ?_ fun _ _ => hunstarted
      rcases hfound : searchFrom _ _ _ with _ | _ | ⟨i, r⟩
      · trivial
      · trivial
      · exact fun m hm => Nat.lt_of_lt_of_le (hbefore m hm) (searchFrom_found hfound).1

end Kept

/-! ### The other calls and the steps outside the loops -/

/-- Neither a call that touches the requests nor a loop of the worker. -/
def Passive : Act ρ → Prop
  | .addNewRequest _ => False
  | .cancelRequest _ => False
  | .cancelRequestsByTarget _ _ _ _ => False
  | .sweep => False
  | .processConnections => False
  | .processCancels => False
  | .cancelEverything => False
  | _ => True

variable [InflateClass δ]

theorem Quiet.of_moves {l l' : Location} {c c' : Client ρ δ} {a : Act ρ} (h : Moves l c a l' c') (ha : Passive a) :
    Quiet l c l' c' := by
  have hsame : ∀ l', Outside l → l' ≠ .returned → (l' = .shutdown → c.stop = true) → Quiet l c l' c := by
    intro l' hl hreturned hstop
    exact ⟨rfl, rfl, rfl, id, ⟨[], (List.append_nil _).symm, by simp⟩, id, .inr ⟨hl, hreturned, hstop⟩⟩
  cases h with
  | addNewConnection _ _ name scheme =>
    refine ⟨rfl, rfl, rfl, id, ⟨[none], ?_, by simp⟩, ?_, .inl rfl⟩
    · simp [Client.addNewConnection, ClientConnection.create, ClientConnection.key]
    · intro hvalid conn hconn
      rcases List.mem_append.mp hconn with hconn | hconn
      · exact hvalid conn hconn
      · rw [List.mem_singleton] at hconn
        subst hconn
        exact ⟨fun _ => rfl, by simp [ClientConnection.create], by simp [ClientConnection.create]⟩
  | setNewConnectionProvider => exact .of_eq rfl rfl rfl rfl rfl
  | stop => exact ⟨rfl, rfl, rfl, fun _ => rfl, ⟨[], (List.append_nil _).symm, by simp⟩, id, .inl rfl⟩
  | getUnsatisfiedTarget => exact .refl _ _
  | post => exact .refl _ _
  | requestNewConnection =>
    exact ⟨rfl, rfl, rfl, id, ⟨[], (List.append_nil _).symm, by simp⟩, id, .inr ⟨.inl rfl, by simp, by simp⟩⟩
  | waitAsync => exact hsame _ (by simp [Outside]) (by simp) (by simp)
  | wake => exact hsame _ (by simp [Outside]) (by simp) (by simp)
  | finish _ connection transfer elapsed =>
    refine ⟨rfl, rfl, rfl, id, ⟨[], ?_, by simp⟩, ?_, .inr ⟨by simp [Outside], by simp, by simp⟩⟩
    · rw [transferred, List.map_map, List.append_nil]
      refine List.map_congr_left fun conn _ => ?_
      rw [Function.comp_apply]
      split_ifs
      · exact apply_key transfer conn
      · rfl
    · intro hvalid conn hconn
      obtain ⟨conn, hmem, rfl⟩ := List.mem_map.mp hconn
      split_ifs
      · cases transfer <;> exact ⟨(hvalid conn hmem).idle, (hvalid conn hmem).request, (hvalid conn hmem).sink⟩
      · exact hvalid conn hmem
  | timeout => exact hsame _ (by simp [Outside]) (by simp) (by simp)
  | checkStop =>
    by_cases hstop : c.stop = true
    · exact hsame _ (by simp [Outside]) (by simp [hstop]) fun _ => hstop
    · exact hsame _ (by simp [Outside]) (by simp [hstop]) (by simp [hstop])
  | _ => exact ha.elim

namespace Kept

variable {s : Reentrant ρ δ}

theorem passive (h : Kept s) {a : Act ρ} (ha : Passive a)
    (hstep : (s.system.step a).map (fun t => { s with system := t }) = some s') : Kept s' := by
  obtain ⟨t, ht, rfl⟩ := Option.map_eq_some_iff.mp hstep
  refine h.quiet ?_ rfl rfl
  obtain ⟨-, ⟨-, hl, hc, -⟩ | ⟨-, hmove⟩⟩ := System.step_cases ht
  · rw [client, client, hl, hc]
    exact .refl _ _
  · exact .of_moves hmove ha

omit [RequestClass ρ] [InflateClass δ] in
theorem enter (h : Kept s) {location : Location} {turn : Turn} (henter : s.enter location turn = some s')
    (hloop : ∀ t : Reentrant ρ δ, t.system.location = location → t.marks = [] → t.InLoop turn) : Kept s' := by
  unfold Reentrant.enter at henter
  split_ifs at henter with hfree
  cases henter
  obtain ⟨hl, hturn, hsuspended⟩ := hfree
  refine ⟨h.account, h.valid, h.decreasing, h.inside, h.stopped, ?_, h.returned⟩
  intro turn' hturn'
  cases hturn'
  exact hloop _ hl (marks_of_nil hsuspended)

end Kept

end

end Reentrant

end Afl.Net.Http
