import Afl.Async.Transfer
import Afl.Lib.Fifo
import Afl.Lib.Run

/-!
# One direction of an internal connection

`InternalNetworkStack::Stream` of `afl/net/internalnetworkstack.cpp`: senders and receivers are collected, and
`tryMove` moves data between the first of each. Send operations are identified by values of `α`, receive operations by
values of `β`, controllers by values of `κ`.
-/

set_option linter.unusedSectionVars false

namespace Afl.Net.InternalStream

open Afl.Async

variable {κ α β : Type} [DecidableEq κ] [DecidableEq α] [DecidableEq β]

/-- A stream and the operations it knows of. -/
structure Stream (κ α β : Type) where
  /-- `m_sends`. -/
  sends : List α
  /-- `m_receives`. -/
  receives : List β
  sendClosed : Bool
  /-- The operations that the pointers point to. -/
  sendOps : α → SendOperation κ
  receiveOps : β → ReceiveOperation κ
  /-- The lists of completed operations of all controllers, merged in the order of the posts. -/
  completed : List (Option κ × (α ⊕ β))
  /-- The controllers an operation was ever posted to. The code does not keep them. -/
  posts : α ⊕ β → List (Option κ)
  /-- The operations in the order of their submission. The code does not keep them. -/
  submittedSends : List α
  submittedReceives : List β

namespace Stream

def new : Stream κ α β where
  sends := []
  receives := []
  sendClosed := false
  sendOps := fun _ => .new
  receiveOps := fun _ => .new
  completed := []
  posts := fun _ => []
  submittedSends := []
  submittedReceives := []

def post (s : Stream κ α β) (ctl : Option κ) (op : α ⊕ β) : Stream κ α β :=
  { s with completed := s.completed ++ [(ctl, op)], posts := Function.update s.posts op (s.posts op ++ [ctl]) }

def copyFrom (s : Stream κ α β) (recv : β) (send : α) : Stream κ α β :=
  { s with
    receiveOps := Function.update s.receiveOps recv ((s.receiveOps recv).copyFrom (s.sendOps send))
    sendOps := Function.update s.sendOps send ((s.receiveOps recv).copiedTo (s.sendOps send)) }

/-- The body of the inner loop of `tryMove`. -/
def moveFrom (s : Stream κ α β) (recv : β) (send : α) : Stream κ α β :=
  let s := s.copyFrom recv send
  if (s.sendOps send).isCompleted then
    post { s with sends := s.sends.tail } (s.sendOps send).controller (.inl send)
  else s

/-- The inner loop of `tryMove`. Every turn finishes a send or completes the receive. -/
def moveAll (recv : β) : Nat → Stream κ α β → Stream κ α β
  | 0, s => s
  | fuel + 1, s =>
    if (s.receiveOps recv).isCompleted then s
    else
      match s.sends with
      | [] => s
      | send :: _ => moveAll recv fuel (s.moveFrom recv send)

def finish (s : Stream κ α β) (recv : β) : Stream κ α β :=
  post { s with receives := s.receives.tail } (s.receiveOps recv).controller (.inr recv)

/-- The outer loop of `tryMove`. Every turn but the last one removes a receive. -/
def tryMoveLoop : Nat → Stream κ α β → Stream κ α β
  | 0, s => s
  | fuel + 1, s =>
    match s.receives with
    | [] => s
    | recv :: _ =>
      let s := moveAll recv s.sends.length s
      if 0 < (s.receiveOps recv).numReceivedBytes ∨ s.sendClosed then tryMoveLoop fuel (s.finish recv) else s

def tryMove (s : Stream κ α β) : Stream κ α β := tryMoveLoop s.receives.length s

/-- An operation whose data was just set gets its controller and is queued. -/
def pushSend (s : Stream κ α β) (ctl : κ) (op : α) (data : Bytes) : Stream κ α β :=
  { s with
    sends := s.sends ++ [op]
    sendOps := Function.update s.sendOps op (((s.sendOps op).setData data).setController ctl)
    submittedSends := s.submittedSends ++ [op] }

def sendAsync (s : Stream κ α β) (ctl : κ) (op : α) (data : Bytes) : Stream κ α β := (s.pushSend ctl op data).tryMove

/-- An operation whose buffer was just set gets its controller and is queued. -/
def pushReceive (s : Stream κ α β) (ctl : κ) (op : β) (data : Bytes) : Stream κ α β :=
  { s with
    receives := s.receives ++ [op]
    receiveOps := Function.update s.receiveOps op (((s.receiveOps op).setData data).setController ctl)
    submittedReceives := s.submittedReceives ++ [op] }

def receiveAsync (s : Stream κ α β) (ctl : κ) (op : β) (data : Bytes) : Stream κ α β :=
  (s.pushReceive ctl op data).tryMove

/-- `cancel` of a send or a receive. The other list does not hold it. -/
def cancel (s : Stream κ α β) (ctl : κ) (op : α ⊕ β) : Stream κ α β :=
  { s with
    sends := op.elim (fun send => s.sends.erase send) fun _ => s.sends
    receives := op.elim (fun _ => s.receives) fun recv => s.receives.erase recv
    completed := s.completed.erase (some ctl, op) }

def closeSend (s : Stream κ α β) : Stream κ α β := tryMove { s with sendClosed := true }

end Stream

/-- The calls of the two sides, each under the stream's mutex. -/
inductive Call (κ α β : Type)
  | sendAsync (ctl : κ) (op : α) (data : Bytes)
  | receiveAsync (ctl : κ) (op : β) (data : Bytes)
  | cancel (ctl : κ) (op : α ⊕ β)
  | closeSend

/-- One call. No operation is submitted while the stream still has it. -/
def Stream.step (s : Stream κ α β) : Call κ α β → Option (Stream κ α β)
  | .sendAsync ctl op data => if op ∈ s.sends then none else some (s.sendAsync ctl op data)
  | .receiveAsync ctl op data => if op ∈ s.receives then none else some (s.receiveAsync ctl op data)
  | .cancel ctl op => some (s.cancel ctl op)
  | .closeSend => some s.closeSend

namespace Stream

/-! ### What a turn of the loops leaves alone -/

@[simp] theorem receives_moveFrom (s : Stream κ α β) (recv : β) (send : α) :
    (s.moveFrom recv send).receives = s.receives := by
  rw [moveFrom]
  split_ifs <;> rfl

@[simp] theorem sendClosed_moveFrom (s : Stream κ α β) (recv : β) (send : α) :
    (s.moveFrom recv send).sendClosed = s.sendClosed := by
  rw [moveFrom]
  split_ifs <;> rfl

theorem receiveOps_moveFrom (s : Stream κ α β) (recv : β) (send : α) :
    (s.moveFrom recv send).receiveOps =
      Function.update s.receiveOps recv ((s.receiveOps recv).copyFrom (s.sendOps send)) := by
  rw [moveFrom]
  split_ifs <;> rfl

theorem sendOps_moveFrom (s : Stream κ α β) (recv : β) (send : α) :
    (s.moveFrom recv send).sendOps =
      Function.update s.sendOps send ((s.receiveOps recv).copiedTo (s.sendOps send)) := by
  rw [moveFrom]
  split_ifs <;> rfl

/-! ### Invariants of the loops -/

theorem moveAll_keeps {I : Stream κ α β → Prop} {recv : β}
    (hmove : ∀ {s send sends}, s.sends = send :: sends → (s.receiveOps recv).isCompleted = false → I s →
      I (s.moveFrom recv send))
    (fuel : Nat) {s : Stream κ α β} (hs : I s) : I (moveAll recv fuel s) := by
  induction fuel generalizing s with
  | zero => exact hs
  | succ fuel ih =>
    rw [moveAll]
    split_ifs with hcompleted
    · exact hs
    · rcases hsends : s.sends with _ | ⟨send, sends⟩
      · exact hs
      · exact ih (hmove hsends (Bool.eq_false_iff.mpr hcompleted) hs)

theorem receives_moveAll (recv : β) (fuel : Nat) (s : Stream κ α β) :
    (moveAll recv fuel s).receives = s.receives := by
  refine moveAll_keeps (I := fun s' => s'.receives = s.receives) ?_ fuel rfl
  intro s' send sends _ _ hs'
  rw [receives_moveFrom, hs']

theorem tryMove_keeps {I : Stream κ α β → Prop}
    (hmove : ∀ {s recv receives send sends}, s.receives = recv :: receives → s.sends = send :: sends → I s →
      I (s.moveFrom recv send))
    (hfinish : ∀ {s recv receives}, s.receives = recv :: receives →
      0 < (s.receiveOps recv).numReceivedBytes ∨ s.sendClosed = true → I s → I (s.finish recv))
    {s : Stream κ α β} (hs : I s) : I s.tryMove := by
  rw [tryMove]
  generalize s.receives.length = fuel
  induction fuel generalizing s with
  | zero => exact hs
  | succ fuel ih =>
    rw [tryMoveLoop]
    rcases hreceives : s.receives with _ | ⟨recv, receives⟩
    · exact hs
    · obtain ⟨hinner, hsame⟩ : I (moveAll recv s.sends.length s) ∧
          (moveAll recv s.sends.length s).receives = recv :: receives := by
        refine moveAll_keeps (I := fun s => I s ∧ s.receives = recv :: receives) ?_ _ ⟨hs, hreceives⟩
        intro s send sends hsends _ hs
        exact ⟨hmove hs.2 hsends hs.1, by rw [receives_moveFrom, hs.2]⟩
      simp only
      split_ifs with hready
      · exact ih (hfinish hsame hready hinner)
      · exact hinner

end Stream

end Afl.Net.InternalStream
