import Afl.Base.Bytes

/-!
# Send and receive operations

`afl/async/sendoperation.hpp` and `receiveoperation.cpp`: descriptors of a buffer and of how much of it has been sent
or received. `copyFrom` moves as many bytes as both sides allow.
-/

namespace Afl.Async

variable {κ : Type}

/-- A send operation. No more bytes are sent than there are. -/
structure SendOperation (κ : Type) where
  /-- `Operation::m_pController`. -/
  controller : Option κ
  data : Bytes
  numSentBytes : Nat
  numSentBytes_le : numSentBytes ≤ data.length

namespace SendOperation

def new : SendOperation κ := ⟨none, [], 0, Nat.le_refl 0⟩

def setController (op : SendOperation κ) (ctl : κ) : SendOperation κ := { op with controller := some ctl }

def setData (op : SendOperation κ) (data : Bytes) : SendOperation κ := ⟨op.controller, data, 0, Nat.zero_le _⟩

def isCompleted (op : SendOperation κ) : Bool := op.data.length ≤ op.numSentBytes

def getUnsentBytes (op : SendOperation κ) : Bytes := op.data.drop op.numSentBytes

def addSentBytes (op : SendOperation κ) (n : Nat) (h : n ≤ op.getUnsentBytes.length) : SendOperation κ where
  controller := op.controller
  data := op.data
  numSentBytes := op.numSentBytes + n
  numSentBytes_le := by
    have hle := op.numSentBytes_le
    rw [getUnsentBytes, List.length_drop] at h
    omega

def sentBytes (op : SendOperation κ) : Bytes := op.data.take op.numSentBytes

theorem isCompleted_iff (op : SendOperation κ) : op.isCompleted = true ↔ op.numSentBytes = op.data.length := by
  have hle := op.numSentBytes_le
  rw [isCompleted, decide_eq_true_eq]
  omega

end SendOperation

/-- A receive operation. No more bytes are received than fit. -/
structure ReceiveOperation (κ : Type) where
  /-- `Operation::m_pController`. -/
  controller : Option κ
  /-- The content of the buffer. -/
  data : Bytes
  numReceivedBytes : Nat
  numReceivedBytes_le : numReceivedBytes ≤ data.length

namespace ReceiveOperation

def new : ReceiveOperation κ := ⟨none, [], 0, Nat.le_refl 0⟩

def setController (op : ReceiveOperation κ) (ctl : κ) : ReceiveOperation κ := { op with controller := some ctl }

def setData (op : ReceiveOperation κ) (data : Bytes) : ReceiveOperation κ := ⟨op.controller, data, 0, Nat.zero_le _⟩

def isCompleted (op : ReceiveOperation κ) : Bool := op.data.length ≤ op.numReceivedBytes

def getReceivedBytes (op : ReceiveOperation κ) : Bytes := op.data.take op.numReceivedBytes

def getUnreceivedBytes (op : ReceiveOperation κ) : Bytes := op.data.drop op.numReceivedBytes

/-- The amount that `Memory::copyFrom` copies. -/
def bytesCopied (op : ReceiveOperation κ) (other : SendOperation κ) : Nat :=
  min op.getUnreceivedBytes.length other.getUnsentBytes.length

/-- The bytes that `Memory::copyFrom` copies. -/
def copied (op : ReceiveOperation κ) (other : SendOperation κ) : Bytes := other.getUnsentBytes.take (op.bytesCopied other)

theorem bytesCopied_eq (op : ReceiveOperation κ) (other : SendOperation κ) :
    op.bytesCopied other =
      min (op.data.length - op.numReceivedBytes) (other.data.length - other.numSentBytes) := by
  rw [bytesCopied, getUnreceivedBytes, SendOperation.getUnsentBytes, List.length_drop, List.length_drop]

theorem length_copied (op : ReceiveOperation κ) (other : SendOperation κ) :
    (op.copied other).length = op.bytesCopied other := by
  rw [copied, List.length_take, bytesCopied]
  omega

theorem length_getReceivedBytes (op : ReceiveOperation κ) : op.getReceivedBytes.length = op.numReceivedBytes := by
  rw [getReceivedBytes, List.length_take, Nat.min_eq_left op.numReceivedBytes_le]

theorem length_overwrite (op : ReceiveOperation κ) (other : SendOperation κ) :
    (op.getReceivedBytes ++ op.copied other ++ op.data.drop (op.numReceivedBytes + op.bytesCopied other)).length =
      op.data.length := by
  have hle := op.numReceivedBytes_le
  have hcopied := op.bytesCopied_eq other
  rw [List.length_append, List.length_append, length_getReceivedBytes, length_copied, List.length_drop]
  omega

/-- The receiving side of `copyFrom`. -/
def copyFrom (op : ReceiveOperation κ) (other : SendOperation κ) : ReceiveOperation κ where
  controller := op.controller
  data := op.getReceivedBytes ++ op.copied other ++ op.data.drop (op.numReceivedBytes + op.bytesCopied other)
  numReceivedBytes := op.numReceivedBytes + op.bytesCopied other
  numReceivedBytes_le := by
    have hle := op.numReceivedBytes_le
    have hcopied := op.bytesCopied_eq other
    rw [length_overwrite]
    omega

/-- The sending side of `copyFrom`. -/
def copiedTo (op : ReceiveOperation κ) (other : SendOperation κ) : SendOperation κ :=
  other.addSentBytes (op.bytesCopied other) (Nat.min_le_right _ _)

theorem sentBytes_copiedTo (op : ReceiveOperation κ) (other : SendOperation κ) :
    (op.copiedTo other).sentBytes = other.sentBytes ++ op.copied other := by
  show other.data.take (other.numSentBytes + op.bytesCopied other) = _
  rw [List.take_add]
  rfl

theorem getReceivedBytes_copyFrom (op : ReceiveOperation κ) (other : SendOperation κ) :
    (op.copyFrom other).getReceivedBytes = op.getReceivedBytes ++ op.copied other := by
  have hlength : op.numReceivedBytes + op.bytesCopied other = (op.getReceivedBytes ++ op.copied other).length := by
    rw [List.length_append, length_getReceivedBytes, length_copied]
  show (op.getReceivedBytes ++ op.copied other ++ _).take (op.numReceivedBytes + op.bytesCopied other) = _
  rw [hlength, List.take_left]

theorem length_copyFrom (op : ReceiveOperation κ) (other : SendOperation κ) :
    (op.copyFrom other).data.length = op.data.length :=
  op.length_overwrite other

theorem isCompleted_copyFrom (op : ReceiveOperation κ) (other : SendOperation κ) :
    (op.copyFrom other).isCompleted = true ∨ (op.copiedTo other).isCompleted = true := by
  have hcopied := op.bytesCopied_eq other
  rw [isCompleted, length_copyFrom, SendOperation.isCompleted, decide_eq_true_eq, decide_eq_true_eq]
  show op.data.length ≤ op.numReceivedBytes + op.bytesCopied other ∨
    other.data.length ≤ other.numSentBytes + op.bytesCopied other
  omega

end ReceiveOperation

end Afl.Async
