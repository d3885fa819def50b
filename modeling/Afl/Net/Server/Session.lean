import Afl.Net.Server.Server
import Mathlib.Data.List.Infix

/-!
# Sessions

What driving a protocol handler is about, after the contract in `afl/net/protocolhandler.hpp`: the handler is asked
for an operation, the operation meets what the peer does, and the handler is told. A driver has two choices that the
contract leaves open: what to do when a send completes without sending anything, and what to report when a send times
out half-way. Sessions of drivers that choose differently part exactly where such a choice is to be made.
-/

namespace Afl.Net.Server

variable {H : Type}

/-- A protocol handler that does not throw, as a state machine that does not look at the clock. -/
structure Machine (H : Type) where
  getOperation : H → H × Operation
  advanceTime : H → H
  handleData : Bytes → H → H
  handleSendTimeout : Bytes → H → H
  handleConnectionClose : H → H

inductive Callback
  | getOperation
  | advanceTime
  | handleData (bytes : Bytes)
  | handleSendTimeout (unsentBytes : Bytes)
  | handleConnectionClose
deriving DecidableEq

/-- The state of a handler and the callbacks it has received. -/
abbrev Recorded (H : Type) := H × List Callback

namespace Machine

variable (m : Machine H)

def ask (h : Recorded H) : Recorded H := ((m.getOperation h.1).1, h.2 ++ [.getOperation])

def tellTime (h : Recorded H) : Recorded H := (m.advanceTime h.1, h.2 ++ [.advanceTime])

def tellData (bytes : Bytes) (h : Recorded H) : Recorded H := (m.handleData bytes h.1, h.2 ++ [.handleData bytes])

def tellTimeout (unsentBytes : Bytes) (h : Recorded H) : Recorded H :=
  (m.handleSendTimeout unsentBytes h.1, h.2 ++ [.handleSendTimeout unsentBytes])

def tellClose (h : Recorded H) : Recorded H := (m.handleConnectionClose h.1, h.2 ++ [.handleConnectionClose])

/-- The machine as a protocol handler that records its callbacks. -/
def recorder : ProtocolHandler (Recorded H) where
  getOperation := fun _ h => (m.ask h, (m.getOperation h.1).2, true)
  advanceTime := fun _ h => (m.tellTime h, true)
  handleData := fun bytes h => (m.tellData bytes h, true)
  handleSendTimeout := fun unsentBytes h => (m.tellTimeout unsentBytes h, true)
  handleConnectionClose := fun h => (m.tellClose h, true)

end Machine

/-! ### The peer -/

/-- What becomes of a send: it completes after some bytes, or times out after some. -/
inductive SendOutcome
  | completes (n : Nat)
  | timesOut (n : Nat)

/-- What becomes of a receive: it completes with some bytes, or times out. -/
inductive ReceiveOutcome
  | completes (bytes : Bytes)
  | timesOut

/-- What becomes of the next operation, whichever it is, and what the clock says then. A timeout is nothing to an
operation that waits indefinitely. -/
structure Outcome where
  send : SendOutcome
  receive : ReceiveOutcome
  tick : UInt32

def Outcome.closed : Outcome := ⟨.completes 0, .completes [], 0⟩

/-! ### The session -/

inductive Pending
  | send (dataToSend : Bytes) (timeToWait : UInt32)
  | receive (timeToWait : UInt32)
  | closed
deriving DecidableEq

structure Session (H : Type) where
  handler : Recorded H
  pending : Pending

/-- The choices of a driver. -/
structure Policy where
  /-- Whether a send that completes without sending anything means that the connection is closed. -/
  closes : Bool
  /-- Whether the bytes of a send that were sent before it timed out count as sent. -/
  counts : Bool

variable {x : Session H}

namespace Session

variable (m : Machine H) (policy : Policy)

def log (x : Session H) : List Callback := x.handler.2

def close (h : Recorded H) : Session H := ⟨m.tellClose h, .closed⟩

def next (h : Recorded H) : Session H :=
  let op := (m.getOperation h.1).2
  if op.dataToSend ≠ [] then ⟨m.ask h, .send op.dataToSend op.timeToWait⟩
  else if op.close then close m (m.ask h)
  else ⟨m.ask h, .receive op.timeToWait⟩

def start (h : H) : Session H := next m (h, [])

def step (x : Session H) (o : Outcome) : Session H :=
  match x.pending with
  | .closed => x
  | .send dataToSend timeToWait =>
    match o.send with
    | .completes n =>
      if dataToSend.length ≤ n then next m (m.tellTime x.handler)
      else if n = 0 ∧ policy.closes then close m x.handler
      else { x with pending := .send (dataToSend.drop n) timeToWait }
    | .timesOut n =>
      if timeToWait = INFINITE_TIMEOUT then x
      else next m (m.tellTimeout (if policy.counts then dataToSend.drop n else dataToSend) (m.tellTime x.handler))
  | .receive timeToWait =>
    match o.receive with
    | .completes bytes =>
      if bytes = [] then close m (m.tellTime x.handler)
      else next m (m.tellData (bytes.take buffer.length) (m.tellTime x.handler))
    | .timesOut => if timeToWait = INFINITE_TIMEOUT then x else next m (m.tellTime x.handler)

def run (x : Session H) (os : List Outcome) : Session H := os.foldl (step m policy) x

theorem run_append (x : Session H) (os os' : List Outcome) : run m policy x (os ++ os') = run m policy (run m policy x os) os' :=
  List.foldl_append

/-! ### Well-formed sessions -/

/-- Something is sent, if there is a send; and the connection is closed once, at the end. -/
structure Proper (x : Session H) : Prop where
  sends : ∀ dataToSend timeToWait, x.pending = .send dataToSend timeToWait → dataToSend ≠ []
  closed : x.pending = .closed → ∃ before, x.log = before ++ [.handleConnectionClose] ∧ .handleConnectionClose ∉ before
  opened : x.pending ≠ .closed → .handleConnectionClose ∉ x.log

variable {m policy}

theorem proper_close {h : Recorded H} (hlog : .handleConnectionClose ∉ h.2) : (close m h).Proper where
  sends := fun _ _ h => by cases h
  closed := fun _ => ⟨h.2, rfl, hlog⟩
  opened := fun h => absurd rfl h

theorem proper_next {h : Recorded H} (hlog : .handleConnectionClose ∉ h.2) : (next m h).Proper := by
  have hasked : .handleConnectionClose ∉ (m.ask h).2 := by simp [Machine.ask, hlog]
  rw [next]
  split_ifs with hdata hclose
  · refine ⟨?_, fun h => (by cases h), fun _ => hasked⟩
    intro dataToSend timeToWait h
    cases h
    exact hdata
  · exact proper_close hasked
  · exact ⟨fun _ _ h => (by cases h), fun h => (by cases h), fun _ => hasked⟩

theorem proper_start (m : Machine H) (h : H) : (start m h).Proper := proper_next List.not_mem_nil

theorem log_next (m : Machine H) (h : Recorded H) : h.2 <+: (next m h).log := by
  have hasked : h.2 <+: (m.ask h).2 := List.prefix_append h.2 _
  rw [next]
  split_ifs
  · exact hasked
  · exact hasked.trans (List.prefix_append _ _)
  · exact hasked

/-! ### What a step can be -/

/-- A step of a session. The callbacks before the handler is asked again begin with the time. -/
inductive Steps (m : Machine H) (policy : Policy) (x x' : Session H) : Prop
  | waits : x' = x → Steps m policy x x'
  | sends (before after : Bytes) (timeToWait : UInt32) : x.pending = .send before timeToWait → after ≠ [] →
      x' = { x with pending := .send after timeToWait } → Steps m policy x x'
  | closes (h : Recorded H) (more : List Callback) : x.pending ≠ .closed → h.2 = x.log ++ more →
      more = [.advanceTime] ∨ (more = [] ∧ policy.closes = true) → x' = close m h → Steps m policy x x'
  | asks (h : Recorded H) (more : List Callback) : x.pending ≠ .closed → h.2 = x.log ++ .advanceTime :: more →
      .handleConnectionClose ∉ more → x' = next m h → Steps m policy x x'

theorem steps_step (m : Machine H) (policy : Policy) (x : Session H) (o : Outcome) :
    Steps m policy x (x.step m policy o) := by
  rw [step]
  rcases hpending : x.pending with ⟨dataToSend, timeToWait⟩ | timeToWait | _
  · have hopen : x.pending ≠ .closed := by
      rw [hpending]
      exact fun h => by cases h
    rcases o.send with n | n
    · simp only
      split_ifs with hall hnone
      · exact .asks _ [] hopen rfl List.not_mem_nil rfl
      · exact .closes x.handler [] hopen (List.append_nil _).symm (.inr ⟨rfl, hnone.2⟩) rfl
      · refine .sends dataToSend _ timeToWait hpending ?_ rfl
        rw [ne_eq, List.drop_eq_nil_iff]
        exact hall
    · simp only
      split_ifs
      · exact .waits rfl
      · exact .asks _ [.handleSendTimeout (dataToSend.drop n)] hopen (List.append_assoc _ _ _) (by simp) rfl
      · exact .asks _ [.handleSendTimeout dataToSend] hopen (List.append_assoc _ _ _) (by simp) rfl
  · have hopen : x.pending ≠ .closed := by
      rw [hpending]
      exact fun h => by cases h
    rcases o.receive with bytes | _
    · simp only
      split_ifs
      · exact .closes (m.tellTime x.handler) [.advanceTime] hopen rfl (.inl rfl) rfl
      · exact .asks _ [.handleData (bytes.take buffer.length)] hopen (List.append_assoc _ _ _) (by simp) rfl
    · simp only
      split_ifs
      · exact .waits rfl
      · exact .asks _ [] hopen rfl List.not_mem_nil rfl
  · exact .waits rfl

theorem Proper.step (hx : x.Proper) (o : Outcome) : (x.step m policy o).Proper := by
  cases steps_step m policy x o with
  | waits h => rwa [h]
  | sends before after timeToWait hpending hafter h =>
    have hlog := hx.opened (by rw [hpending]; exact fun h => by cases h)
    rw [h]
    refine ⟨?_, fun h => (by cases h), fun _ => hlog⟩
    intro dataToSend timeToWait h
    cases h
    exact hafter
  | closes h more hopen hlog hmore hclose =>
    rw [hclose]
    refine proper_close ?_
    rw [hlog, List.mem_append, not_or]
    refine ⟨hx.opened hopen, ?_⟩
    rcases hmore with rfl | ⟨rfl, -⟩
    · simp
    · exact List.not_mem_nil
  | asks h more hopen hlog hmore hnext =>
    rw [hnext]
    refine proper_next ?_
    rw [hlog, List.mem_append, List.mem_cons, not_or, not_or]
    exact ⟨hx.opened hopen, fun h => (by cases h), hmore⟩

theorem Proper.run (hx : x.Proper) (os : List Outcome) : (x.run m policy os).Proper := by
  induction os generalizing x with
  | nil => exact hx
  | cons o os ih => exact ih (hx.step o)

theorem log_step (x : Session H) (o : Outcome) : x.log <+: (x.step m policy o).log := by
  cases steps_step m policy x o with
  | waits h => rw [h]
  | sends _ _ _ _ _ h => rw [h]; exact List.prefix_refl _
  | closes h more _ hlog _ hclose =>
    rw [hclose]
    refine List.IsPrefix.trans ?_ (List.prefix_append h.2 _)
    rw [hlog]
    exact List.prefix_append _ _
  | asks h more _ hlog _ hnext =>
    rw [hnext]
    refine List.IsPrefix.trans ?_ (log_next m h)
    rw [hlog]
    exact List.prefix_append _ _

end Session

/-! ### Two drivers -/

/-- `Server`: a send without effect closes the connection; a timeout reports what was to be sent. -/
def Policy.server : Policy := ⟨true, false⟩

/-- `interact`: a send without effect is repeated; a timeout reports what was not sent. -/
def Policy.interact : Policy := ⟨false, true⟩

namespace Session

/-- No choice is to be made: no send completes without effect, and none times out half-way. -/
def Clear (x : Session H) (o : Outcome) : Prop :=
  match x.pending with
  | .send _ timeToWait =>
    match o.send with
    | .completes n => n ≠ 0
    | .timesOut n => timeToWait = INFINITE_TIMEOUT ∨ n = 0
  | .receive _ | .closed => True

/-- No choice is to be made in the whole session. -/
def AllClear (m : Machine H) : Session H → List Outcome → Prop
  | _, [] => True
  | x, o :: os => x.Clear o ∧ AllClear m (x.step m .server o) os

variable {m : Machine H}

theorem allClear_append (x : Session H) (os os' : List Outcome) :
    AllClear m x (os ++ os') ↔ AllClear m x os ∧ AllClear m (x.run m .server os) os' := by
  induction os generalizing x with
  | nil => exact (and_iff_right trivial).symm
  | cons o os ih =>
    rw [List.cons_append, AllClear, AllClear, ih, and_assoc]
    rfl

theorem step_eq_of_clear {o : Outcome} (h : x.Clear o) :
    x.step m .interact o = x.step m .server o := by
  rw [Clear] at h
  rw [step, step]
  revert h
  rcases x.pending with ⟨dataToSend, timeToWait⟩ | timeToWait | _
  · rcases o.send with n | n
    · intro h
      simp [h]
    · rintro (h | rfl)
      · simp [h]
      · simp
  · exact fun _ => rfl
  · exact fun _ => rfl

theorem run_eq_of_allClear {os : List Outcome} (h : AllClear m x os) :
    x.run m .interact os = x.run m .server os := by
  induction os generalizing x with
  | nil => rfl
  | cons o os ih =>
    have hrest := ih h.2
    rw [← step_eq_of_clear h.1] at hrest
    rw [run, List.foldl_cons, ← run, hrest, step_eq_of_clear h.1]
    rfl

/-- The callbacks have parted, or are about to. -/
def Parted (x y : Session H) : Prop :=
  ∃ before a, before ++ [a] <+: x.log ∧
    ((y.log = before ∧ a ≠ .advanceTime ∧ ∃ dataToSend timeToWait, y.pending = .send dataToSend timeToWait) ∨
      ∃ b, b ≠ a ∧ before ++ [b] <+: y.log)

theorem Parted.step {x y : Session H} (h : Parted x y) (o : Outcome) :
    Parted (x.step m .server o) (y.step m .interact o) := by
  obtain ⟨before, a, hx, hy⟩ := h
  refine ⟨before, a, hx.trans (log_step x o), ?_⟩
  rcases hy with ⟨hlog, hne, dataToSend, timeToWait, hpending⟩ | ⟨b, hne, hlog⟩
  · -- The next callback of a session that is sending is the time.
    cases steps_step m .interact y o with
    | waits h =>
      rw [h]
      exact .inl ⟨hlog, hne, dataToSend, timeToWait, hpending⟩
    | sends _ after timeToWait' _ _ h =>
      rw [h]
      exact .inl ⟨hlog, hne, after, timeToWait', rfl⟩
    | closes h more _ hmore htime hclose =>
      obtain rfl := htime.resolve_right fun h => (by cases h.2)
      refine .inr ⟨.advanceTime, hne.symm, ?_⟩
      rw [hclose]
      refine List.IsPrefix.trans ?_ (List.prefix_append h.2 _)
      rw [hmore, hlog]
    | asks h more _ hmore _ hnext =>
      have hsplit : before ++ .advanceTime :: more = before ++ [.advanceTime] ++ more := by simp
      refine .inr ⟨.advanceTime, hne.symm, ?_⟩
      rw [hnext]
      refine List.IsPrefix.trans ?_ (log_next m h)
      rw [hmore, hlog, hsplit]
      exact List.prefix_append _ _
  · exact .inr ⟨b, hne, hlog.trans (log_step y o)⟩

theorem Parted.run {x y : Session H} (h : Parted x y) (os : List Outcome) :
    Parted (x.run m .server os) (y.run m .interact os) := by
  induction os generalizing x y with
  | nil => exact h
  | cons o os ih => exact ih (h.step o)

theorem Parted.log_ne {x y : Session H} (h : Parted x y) (hy : y.pending = .closed) : x.log ≠ y.log := by
  intro heq
  obtain ⟨before, a, hx, ⟨-, -, dataToSend, timeToWait, hpending⟩ | ⟨b, hne, hlog⟩⟩ := h
  · rw [hy] at hpending
    cases hpending
  · rw [heq] at hx
    have hsame := List.prefix_of_prefix_length_le hx hlog (by simp)
    have hlist := hsame.eq_of_length (by simp)
    exact hne (by simpa using hlist.symm)

theorem parted_of_not_clear (hx : x.Proper) {o : Outcome} (h : ¬x.Clear o) :
    Parted (x.step m .server o) (x.step m .interact o) := by
  have hsends := hx.sends
  revert h hsends
  rw [Clear, step, step]
  rcases x.pending with ⟨dataToSend, timeToWait⟩ | timeToWait | _
  · intro h hsends
    have hdata := List.length_pos_iff.mpr (hsends dataToSend timeToWait rfl)
    revert h
    rcases o.send with n | n
    · intro h
      obtain rfl : n = 0 := not_not.mp h
      have hsome : ¬dataToSend.length ≤ 0 := by omega
      simp only [if_neg hsome]
      exact ⟨x.log, .handleConnectionClose, List.prefix_refl _, .inl ⟨rfl, fun h => (by cases h), _, _, rfl⟩⟩
    · intro h
      obtain ⟨hfinite, hn⟩ := not_or.mp h
      simp only [if_neg hfinite, Policy.server, Policy.interact, Bool.false_eq_true, if_false, if_true]
      have hlog : ∀ unsent, x.log ++ [Callback.advanceTime] ++ [Callback.handleSendTimeout unsent] <+:
          (next m (m.tellTimeout unsent (m.tellTime x.handler))).log :=
        fun unsent => log_next m (m.tellTimeout unsent (m.tellTime x.handler))
      refine ⟨x.log ++ [Callback.advanceTime], .handleSendTimeout dataToSend, hlog dataToSend, .inr ?_⟩
      refine ⟨.handleSendTimeout (dataToSend.drop n), ?_, hlog (dataToSend.drop n)⟩
      intro heq
      have hlength := congrArg List.length (Callback.handleSendTimeout.inj heq)
      rw [List.length_drop] at hlength
      omega
  · exact fun h => absurd trivial h
  · exact fun h => absurd trivial h

theorem parted_of_not_allClear (hx : x.Proper) {os : List Outcome} (h : ¬AllClear m x os) :
    Parted (x.run m .server os) (x.run m .interact os) := by
  induction os generalizing x with
  | nil => exact absurd trivial h
  | cons o os ih =>
    by_cases hclear : x.Clear o
    · have hrest : ¬AllClear m (x.step m .server o) os := fun hrest => h ⟨hclear, hrest⟩
      have hparted := ih (hx.step o) hrest
      rw [run, run, List.foldl_cons, List.foldl_cons, step_eq_of_clear hclear]
      exact hparted
    · exact (parted_of_not_clear hx hclear).run os

theorem closed_of_clear (h : x.Clear .closed) (policy : Policy) :
    (x.step m policy .closed).pending = .closed := by
  revert h
  rw [Clear, step]
  rcases hpending : x.pending with ⟨dataToSend, timeToWait⟩ | timeToWait | _
  · exact fun h => absurd rfl h
  · exact fun _ => rfl
  · exact fun _ => hpending

end Session

end Afl.Net.Server
