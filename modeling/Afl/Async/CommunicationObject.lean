import Afl.Async.Timer
import Afl.Async.Transfer

/-!
# Full transfers

`afl/async/communicationobject.cpp`. `fullSend` and `fullReceive` start partial operations until everything has been
transferred, and deduct the time since the beginning of the call from the timeout after each. `adjustTimeout` takes the
reference time by value, so that it never moves: the k-th operation is charged for the first one k - 1 times.
-/

namespace Afl.Async

variable {κ α : Type}

/-- What one partial operation does: how long it takes, whether it is done before its timeout, and what it could
transfer. -/
structure Transfer (α : Type) where
  ticks : Nat
  success : Bool
  transferred : α

namespace Transfer

def send (x : Transfer Nat) (op : SendOperation κ) : SendOperation κ :=
  op.addSentBytes (min x.transferred op.getUnsentBytes.length) (Nat.min_le_right _ _)

def receive (x : Transfer Bytes) (op : ReceiveOperation κ) : ReceiveOperation κ :=
  op.copyFrom (SendOperation.new.setData x.transferred)

def elapsed (xs : List (Transfer α)) (k : Nat) : Nat := ((xs.take k).map ticks).sum

theorem elapsed_zero (xs : List (Transfer α)) : elapsed xs 0 = 0 := rfl

theorem elapsed_cons (x : Transfer α) (xs : List (Transfer α)) (k : Nat) :
    elapsed (x :: xs) (k + 1) = x.ticks + elapsed xs k := rfl

/-- The operations of a script that are started to transfer `n` bytes. -/
def started (amount : α → Nat) : Nat → List (Transfer α) → List (Transfer α)
  | _, [] => []
  | n, x :: xs =>
    if n = 0 then []
    else if x.success = true ∧ amount x.transferred ≠ 0 then x :: started amount (n - amount x.transferred) xs
    else [x]

end Transfer

open Transfer

/-- The new value of `timeout`. The function takes its reference time `t` by value: `t = now` has no effect. -/
def adjustTimeout (timeout t : UInt32) (now : Nat) : UInt32 :=
  if timeout ≠ infiniteTimeout then timeout - min timeout (getTickCounter now - t) else timeout

/-- How a call ends. -/
inductive Outcome
  | returns
  | throws (what : String)
  /-- The script is over before the call is. -/
  | waits
  deriving DecidableEq

/-- A call of `fullSend` or `fullReceive`. -/
structure Call (α : Type) where
  /-- The partial operations in their order, each with the timeout it is started with. -/
  started : List (UInt32 × Transfer α)
  /-- The bytes that have been sent or received. -/
  bytes : Bytes
  outcome : Outcome

def Call.after (timeout : UInt32) (x : Transfer α) (bytes : Bytes) (c : Call α) : Call α :=
  ⟨(timeout, x) :: c.started, bytes ++ c.bytes, c.outcome⟩

def networkError : String := "Network error"

def networkConnectionLost : String := "Network connection lost"

namespace CommunicationObject

def fullSendLoop (t : UInt32) : Nat → UInt32 → SendOperation κ → List (Transfer Nat) → Call Nat
  | _, _, op, [] => if op.getUnsentBytes.isEmpty then ⟨[], [], .returns⟩ else ⟨[], [], .waits⟩
  | now, timeout, op, x :: xs =>
    if op.getUnsentBytes.isEmpty then ⟨[], [], .returns⟩
    else
      let op' := x.send op
      if x.success = false ∨ op'.numSentBytes = 0 then ⟨[(timeout, x)], op'.sentBytes, .throws networkError⟩
      else
        (fullSendLoop t (now + x.ticks) (adjustTimeout timeout t (now + x.ticks)) (op'.setData op'.getUnsentBytes)
          xs).after timeout x op'.sentBytes

/-- `fullSend`, called at a given time. -/
def fullSend (now : Nat) (bytes : Bytes) (timeout : UInt32) (script : List (Transfer Nat)) : Call Nat :=
  fullSendLoop (getTickCounter now) now timeout ((SendOperation.new : SendOperation Unit).setData bytes) script

def fullReceiveLoop (t : UInt32) : Nat → UInt32 → ReceiveOperation κ → List (Transfer Bytes) → Call Bytes
  | _, _, op, [] => if op.isCompleted then ⟨[], [], .returns⟩ else ⟨[], [], .waits⟩
  | now, timeout, op, x :: xs =>
    if op.isCompleted then ⟨[], [], .returns⟩
    else
      let op' := x.receive (op.setData op.getUnreceivedBytes)
      if x.success = false then ⟨[(timeout, x)], op'.getReceivedBytes, .throws networkError⟩
      else if op'.numReceivedBytes = 0 then ⟨[(timeout, x)], op'.getReceivedBytes, .throws networkConnectionLost⟩
      else
        (fullReceiveLoop t (now + x.ticks) (adjustTimeout timeout t (now + x.ticks)) op' xs).after timeout x
          op'.getReceivedBytes

/-- `fullReceive` into a buffer, called at a given time. -/
def fullReceive (now : Nat) (buffer : Bytes) (timeout : UInt32) (script : List (Transfer Bytes)) : Call Bytes :=
  fullReceiveLoop (getTickCounter now) now timeout ((ReceiveOperation.new : ReceiveOperation Unit).setData buffer) script

/-! ### The timeouts of the operations -/

/-- The operations, each with its timeout; `e` is the time since the beginning of the call. -/
def timeline (start : Nat) : Nat → UInt32 → List (Transfer α) → List (UInt32 × Transfer α)
  | _, _, [] => []
  | e, timeout, x :: xs =>
    (timeout, x) :: timeline start (e + x.ticks)
      (adjustTimeout timeout (getTickCounter start) (start + (e + x.ticks))) xs

theorem timeline_map_snd (start e : Nat) (timeout : UInt32) (xs : List (Transfer α)) :
    (timeline start e timeout xs).map Prod.snd = xs := by
  induction xs generalizing e timeout with
  | nil => rfl
  | cons x xs ih => rw [timeline, List.map_cons, ih]

theorem numSentBytes_send {op : SendOperation κ} (hop : op.numSentBytes = 0) (x : Transfer Nat) :
    (x.send op).numSentBytes = min x.transferred op.getUnsentBytes.length := by
  show op.numSentBytes + min x.transferred op.getUnsentBytes.length = _
  rw [hop, Nat.zero_add]

theorem length_getUnsentBytes_send {op : SendOperation κ} (hop : op.numSentBytes = 0) (x : Transfer Nat) :
    (x.send op).getUnsentBytes.length = op.getUnsentBytes.length - x.transferred := by
  rw [SendOperation.getUnsentBytes, List.length_drop, numSentBytes_send hop, SendOperation.getUnsentBytes, List.length_drop, hop]
  show op.data.length - _ = _
  omega

theorem started_fullSendLoop (start e : Nat) (timeout : UInt32) (op : SendOperation κ) (hop : op.numSentBytes = 0)
    (xs : List (Transfer Nat)) :
    (fullSendLoop (getTickCounter start) (start + e) timeout op xs).started =
      timeline start e timeout (Transfer.started id op.getUnsentBytes.length xs) := by
  induction xs generalizing e timeout op with
  | nil =>
    rw [fullSendLoop, Transfer.started, timeline]
    split <;> rfl
  | cons x xs ih =>
    rw [fullSendLoop, Transfer.started]
    by_cases hempty : op.getUnsentBytes.length = 0
    · rw [if_pos hempty, if_pos (List.isEmpty_iff.mpr (List.length_eq_zero_iff.mp hempty)), timeline]
    · rw [if_neg hempty, if_neg (fun h => hempty (List.length_eq_zero_iff.mpr (List.isEmpty_iff.mp h)))]
      dsimp only
      rw [numSentBytes_send hop]
      have hgoes : (x.success = true ∧ id x.transferred ≠ 0) ↔
          ¬(x.success = false ∨ min x.transferred op.getUnsentBytes.length = 0) := by
        have hmin : min x.transferred op.getUnsentBytes.length = 0 ↔ id x.transferred = 0 := by
          rw [id]
          omega
        rw [not_or, Bool.not_eq_false, hmin]
      by_cases hgood : x.success = true ∧ id x.transferred ≠ 0
      · rw [if_pos hgood, if_neg (hgoes.mp hgood), timeline, id, ← length_getUnsentBytes_send hop, Nat.add_assoc]
        exact congrArg (List.cons (timeout, x))
          (ih (e + x.ticks) _ ((x.send op).setData (x.send op).getUnsentBytes) rfl)
      · rw [if_neg hgood, if_pos (not_not.mp (mt hgoes.mpr hgood))]
        rfl

theorem length_getUnreceivedBytes (op : ReceiveOperation κ) :
    op.getUnreceivedBytes.length = op.data.length - op.numReceivedBytes := by
  rw [ReceiveOperation.getUnreceivedBytes, List.length_drop]

theorem numReceivedBytes_receive (op : ReceiveOperation κ) (x : Transfer Bytes) :
    (x.receive (op.setData op.getUnreceivedBytes)).numReceivedBytes =
      min x.transferred.length op.getUnreceivedBytes.length := by
  show 0 + ReceiveOperation.bytesCopied _ _ = _
  rw [ReceiveOperation.bytesCopied_eq, Nat.zero_add, Nat.min_comm]
  rfl

theorem length_getUnreceivedBytes_receive (op : ReceiveOperation κ) (x : Transfer Bytes) :
    (x.receive (op.setData op.getUnreceivedBytes)).getUnreceivedBytes.length =
      op.getUnreceivedBytes.length - x.transferred.length := by
  rw [length_getUnreceivedBytes, numReceivedBytes_receive]
  show List.length _ - _ = _
  rw [Transfer.receive, ReceiveOperation.length_copyFrom]
  show op.getUnreceivedBytes.length - _ = _
  omega

theorem started_fullReceiveLoop (start e : Nat) (timeout : UInt32) (op : ReceiveOperation κ)
    (xs : List (Transfer Bytes)) :
    (fullReceiveLoop (getTickCounter start) (start + e) timeout op xs).started =
      timeline start e timeout (Transfer.started List.length op.getUnreceivedBytes.length xs) := by
  induction xs generalizing e timeout op with
  | nil =>
    rw [fullReceiveLoop, Transfer.started, timeline]
    split <;> rfl
  | cons x xs ih =>
    have hcompleted : op.isCompleted = true ↔ op.getUnreceivedBytes.length = 0 := by
      rw [ReceiveOperation.isCompleted, decide_eq_true_eq, length_getUnreceivedBytes]
      omega
    rw [fullReceiveLoop, Transfer.started]
    by_cases hempty : op.getUnreceivedBytes.length = 0
    · rw [if_pos hempty, if_pos (hcompleted.mpr hempty), timeline]
    · rw [if_neg hempty, if_neg (fun h => hempty (hcompleted.mp h))]
      dsimp only
      rw [numReceivedBytes_receive]
      rcases Bool.eq_false_or_eq_true x.success with hsuccess | hfails
      · rw [if_neg (by rw [hsuccess]; exact Bool.noConfusion)]
        by_cases hnone : x.transferred.length = 0
        · rw [if_pos (by omega), if_neg fun h => h.2 hnone]
          rfl
        · rw [if_neg (by omega), if_pos ⟨hsuccess, hnone⟩, timeline, ← length_getUnreceivedBytes_receive, Nat.add_assoc]
          exact congrArg (List.cons (timeout, x)) (ih (e + x.ticks) _ (x.receive (op.setData op.getUnreceivedBytes)))
      · rw [if_pos hfails, if_neg fun h => Bool.noConfusion (hfails.symm.trans h.1)]
        rfl

theorem started_fullSend (now : Nat) (bytes : Bytes) (timeout : UInt32) (script : List (Transfer Nat)) :
    (fullSend now bytes timeout script).started =
      timeline now 0 timeout (Transfer.started id bytes.length script) :=
  started_fullSendLoop now 0 timeout _ rfl script

theorem started_fullReceive (now : Nat) (buffer : Bytes) (timeout : UInt32) (script : List (Transfer Bytes)) :
    (fullReceive now buffer timeout script).started =
      timeline now 0 timeout (Transfer.started List.length buffer.length script) :=
  started_fullReceiveLoop now 0 timeout _ script

/-! ### The deadline -/

theorem toNat_elapsed (start e : Nat) (h : e < 2 ^ 32) :
    (getTickCounter (start + e) - getTickCounter start).toNat = e := by
  rw [toNat_getTickCounter_sub (Nat.le_add_right start e), Nat.add_sub_cancel_left, Nat.mod_eq_of_lt h]

theorem toNat_min (a b : UInt32) : (min a b).toNat = min a.toNat b.toNat := by
  show (if a ≤ b then a else b).toNat = _
  rw [apply_ite UInt32.toNat]
  simp only [UInt32.le_iff_toNat_le, Nat.min_def]

theorem toNat_sub_min (a b : UInt32) : (a - min a b).toNat = a.toNat - min a.toNat b.toNat := by
  have hle : min a b ≤ a := by
    rw [UInt32.le_iff_toNat_le, toNat_min]
    exact Nat.min_le_left _ _
  rw [UInt32.toNat_sub_of_le _ _ hle, toNat_min]

theorem toNat_adjustTimeout (timeout : UInt32) (start e : Nat) (hfinite : timeout ≠ infiniteTimeout)
    (he : e < 2 ^ 32) :
    (adjustTimeout timeout (getTickCounter start) (start + e)).toNat = timeout.toNat - e := by
  rw [adjustTimeout, if_pos hfinite, toNat_sub_min, toNat_elapsed start e he]
  omega

theorem adjustTimeout_ne_infiniteTimeout (timeout t : UInt32) (now : Nat) (hfinite : timeout ≠ infiniteTimeout) :
    adjustTimeout timeout t now ≠ infiniteTimeout := by
  intro heq
  have hle : infiniteTimeout.toNat ≤ timeout.toNat := by
    rw [← heq, adjustTimeout, if_pos hfinite, toNat_sub_min]
    exact Nat.sub_le _ _
  refine hfinite (UInt32.toNat_inj.mp ?_)
  have hlt := timeout.toNat_lt
  have hvalue : infiniteTimeout.toNat = 2 ^ 32 - 1 := rfl
  omega

theorem timeline_zero {start e : Nat} {timeout : UInt32} {xs : List (Transfer α)} {a : UInt32} {x : Transfer α}
    (h : (timeline start e timeout xs)[0]? = some (a, x)) : a = timeout := by
  cases xs with
  | nil => cases h
  | cons y xs =>
    rw [timeline, List.getElem?_cons_zero] at h
    exact ((Prod.mk.inj (Option.some.inj h)).1).symm

theorem timeline_succ {start e : Nat} {timeout : UInt32} {xs : List (Transfer α)} {k : Nat} {a b : UInt32}
    {x y : Transfer α} (hfinite : timeout ≠ infiniteTimeout) (hticks : e + elapsed xs xs.length < 2 ^ 32)
    (ha : (timeline start e timeout xs)[k]? = some (a, x))
    (hb : (timeline start e timeout xs)[k + 1]? = some (b, y)) :
    b.toNat = a.toNat - (e + elapsed xs (k + 1)) := by
  induction xs generalizing e timeout k with
  | nil => cases ha
  | cons z zs ih =>
    rw [List.length_cons, elapsed_cons] at hticks
    rw [timeline, List.getElem?_cons_succ] at hb
    rw [elapsed_cons]
    cases k with
    | zero =>
      obtain rfl := timeline_zero ha
      rw [timeline_zero hb, toNat_adjustTimeout _ _ _ hfinite (by omega), elapsed_zero, Nat.add_zero]
    | succ k =>
      rw [timeline, List.getElem?_cons_succ] at ha
      rw [ih (adjustTimeout_ne_infiniteTimeout _ _ _ hfinite) (by omega) ha hb, Nat.add_assoc]

/-- Each operation is started with what is left of the timeout. -/
def Remaining (T : UInt32) (started : List (UInt32 × Transfer α)) : Prop :=
  ∀ k timeout x, started[k]? = some (timeout, x) →
    timeout.toNat = T.toNat - elapsed (started.map Prod.snd) k

/-- If no operation gives up before its timeout, the call does not fail by timeout before its own. -/
def NeverEarly (T : UInt32) (started : List (UInt32 × Transfer α)) : Prop :=
  (∀ timeout x, (timeout, x) ∈ started → x.success = false → timeout.toNat ≤ x.ticks) →
    ∀ k timeout x, started[k]? = some (timeout, x) → x.success = false →
      T.toNat ≤ elapsed (started.map Prod.snd) (k + 1)

/-- One overall deadline for all operations of a call. -/
def HonoursDeadline (T : UInt32) (started : List (UInt32 × Transfer α)) : Prop :=
  Remaining T started ∧ NeverEarly T started

/-- Whenever a third or later operation is started, all but the one before it took no time, or the deadline is over. -/
def DeductedOnce (T : UInt32) (xs : List (Transfer α)) : Prop :=
  ∀ k, k + 2 < xs.length → elapsed xs (k + 1) = 0 ∨ T.toNat ≤ elapsed xs (k + 2)

theorem elapsed_succ {xs : List (Transfer α)} {k : Nat} {x : Transfer α} (h : xs[k]? = some x) :
    elapsed xs (k + 1) = elapsed xs k + x.ticks := by
  induction xs generalizing k with
  | nil => cases h
  | cons y xs ih =>
    cases k with
    | zero =>
      rw [List.getElem?_cons_zero, Option.some.injEq] at h
      rw [elapsed_cons, elapsed_zero, elapsed_zero, h, Nat.add_comm]
    | succ k =>
      rw [List.getElem?_cons_succ] at h
      rw [elapsed_cons, elapsed_cons, ih h, Nat.add_assoc]

theorem Remaining.neverEarly {T : UInt32} {started : List (UInt32 × Transfer α)} (h : Remaining T started) :
    NeverEarly T started := by
  intro hcontract k timeout x hk hfails
  have hleft := h k timeout x hk
  have hticks := hcontract timeout x (List.mem_of_getElem? hk) hfails
  rw [elapsed_succ (x := x) (by rw [List.getElem?_map, hk]; rfl)]
  omega

theorem remaining_timeline_iff (start : Nat) {T : UInt32} (hfinite : T ≠ infiniteTimeout) (xs : List (Transfer α))
    (hticks : elapsed xs xs.length < 2 ^ 32) :
    Remaining T (timeline start 0 T xs) ↔ DeductedOnce T xs := by
  have hlength : (timeline start 0 T xs).length = xs.length := by
    rw [← List.length_map Prod.snd, timeline_map_snd]
  have hstep : ∀ {k a b x y}, (timeline start 0 T xs)[k]? = some (a, x) →
      (timeline start 0 T xs)[k + 1]? = some (b, y) → b.toNat = a.toNat - elapsed xs (k + 1) := by
    intro k a b x y ha hb
    have h := timeline_succ hfinite (by omega) ha hb
    rwa [Nat.zero_add] at h
  have hsome : ∀ k < xs.length, ∃ p, (timeline start 0 T xs)[k]? = some p :=
    fun k hk => ⟨_, List.getElem?_eq_getElem (hlength ▸ hk)⟩
  rw [Remaining, timeline_map_snd]
  constructor
  · intro hleft k hk
    obtain ⟨⟨a, x⟩, ha⟩ := hsome (k + 1) (by omega)
    obtain ⟨⟨b, y⟩, hb⟩ := hsome (k + 2) (by omega)
    have hnext : b.toNat = a.toNat - elapsed xs (k + 2) := hstep ha hb
    have hleft₁ := hleft _ _ _ ha
    have hleft₂ := hleft _ _ _ hb
    omega
  · intro honce k
    induction k with
    | zero =>
      intro timeout x hk
      rw [timeline_zero hk, elapsed_zero, Nat.sub_zero]
    | succ k ih =>
      intro timeout y hk
      have hlt : k + 1 < xs.length := hlength ▸ (List.getElem?_eq_some_iff.mp hk).1
      obtain ⟨⟨a, x⟩, ha⟩ := hsome k (by omega)
      rw [hstep ha hk, ih _ _ ha]
      cases k with
      | zero => rw [elapsed_zero, Nat.sub_zero]
      | succ k =>
        rcases honce k hlt with hnone | hover
        · rw [hnone, Nat.sub_zero]
        · rw [show k + 1 + 1 = k + 2 from rfl]
          omega

theorem honoursDeadline_timeline_iff (start : Nat) {T : UInt32} (hfinite : T ≠ infiniteTimeout)
    (xs : List (Transfer α)) (hticks : elapsed xs xs.length < 2 ^ 32) :
    HonoursDeadline T (timeline start 0 T xs) ↔ DeductedOnce T xs :=
  ⟨fun h => (remaining_timeline_iff start hfinite xs hticks).mp h.1, fun h =>
    have hleft := (remaining_timeline_iff start hfinite xs hticks).mpr h
    ⟨hleft, hleft.neverEarly⟩⟩

/-- **The deadline of a full transfer**, in both directions: it is honoured exactly when no time is deducted twice. -/
theorem honoursDeadline_iff (now : Nat) {T : UInt32} (hfinite : T ≠ infiniteTimeout) :
    (∀ (bytes : Bytes) (script : List (Transfer Nat)),
      elapsed (Transfer.started id bytes.length script) (Transfer.started id bytes.length script).length < 2 ^ 32 →
      (HonoursDeadline T (fullSend now bytes T script).started ↔
        DeductedOnce T (Transfer.started id bytes.length script))) ∧
    ∀ (buffer : Bytes) (script : List (Transfer Bytes)),
      elapsed (Transfer.started List.length buffer.length script)
        (Transfer.started List.length buffer.length script).length < 2 ^ 32 →
      (HonoursDeadline T (fullReceive now buffer T script).started ↔
        DeductedOnce T (Transfer.started List.length buffer.length script)) := by
  constructor
  · intro bytes script hticks
    rw [started_fullSend]
    exact honoursDeadline_timeline_iff now hfinite _ hticks
  · intro buffer script hticks
    rw [started_fullReceive]
    exact honoursDeadline_timeline_iff now hfinite _ hticks

/-- Two transfers of 60 ticks with a timeout of 100 ticks leave nothing to start a third operation with. -/
theorem honoursDeadline_iff_twice_sixty :
    HonoursDeadline 100 (fullSend 7 [1, 2, 3] 100 [⟨60, true, 1⟩, ⟨60, true, 1⟩, ⟨0, true, 1⟩]).started ∧
      HonoursDeadline 100 (fullReceive 7 [0, 0, 0] 100 [⟨60, true, [1]⟩, ⟨60, true, [2]⟩, ⟨0, true, [3]⟩]).started := by
  constructor
  · refine ((honoursDeadline_iff 7 (by decide)).1 [1, 2, 3] _ (by decide)).mpr fun k hk => ?_
    obtain rfl : k = 0 := Nat.lt_one_iff.mp (Nat.lt_of_add_lt_add_right hk)
    exact .inr (by decide)
  · refine ((honoursDeadline_iff 7 (by decide)).2 [0, 0, 0] _ (by decide)).mpr fun k hk => ?_
    obtain rfl : k = 0 := Nat.lt_one_iff.mp (Nat.lt_of_add_lt_add_right hk)
    exact .inr (by decide)

/-- Each byte takes 10 ticks. The timeouts are 100, 90, 70, 40 and 0, so that the call is over after 40 ticks. -/
theorem not_honoursDeadline_slow_peer :
    let started := (fullSend 0 [1, 2, 3, 4, 5] 100
      [⟨10, true, 1⟩, ⟨10, true, 1⟩, ⟨10, true, 1⟩, ⟨10, true, 1⟩, ⟨0, false, 0⟩]).started
    ¬Remaining 100 started ∧ ¬NeverEarly 100 started := by
  intro started
  have hstarted : started = [(100, ⟨10, true, 1⟩), (90, ⟨10, true, 1⟩), (70, ⟨10, true, 1⟩), (40, ⟨10, true, 1⟩),
    (0, ⟨0, false, 0⟩)] := rfl
  rw [hstarted]
  constructor
  · intro hleft
    have h := hleft 2 70 _ rfl
    exact absurd h (by decide)
  · intro hnever
    refine absurd (hnever ?_ 4 0 _ rfl rfl) (by decide)
    intro timeout x hx hfails
    simp only [List.mem_cons, Prod.mk.injEq, List.not_mem_nil, or_false] at hx
    obtain ⟨rfl, rfl⟩ | ⟨rfl, rfl⟩ | ⟨rfl, rfl⟩ | ⟨rfl, rfl⟩ | ⟨rfl, rfl⟩ := hx
    all_goals first
      | exact Bool.noConfusion hfails
      | exact Nat.le_refl 0

end CommunicationObject

end Afl.Async
