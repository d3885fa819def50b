import Afl.Base.Bytes
import Afl.Lib.Loop

/-!
# Transforming data

A `Transform` is called with an input descriptor and a descriptor of free memory, and updates both. The memory that
`out` describes on entry is passed by its content; what `out` describes on return is a `Range` of it.
`TransformReaderStream` reads from another stream through a transform, `TransformDataSink` writes through one.
-/

namespace Afl.Io

/-- What a descriptor describes, in a buffer. -/
structure Range where
  first : Nat
  size : Nat
  deriving DecidableEq

def Range.bytes (r : Range) (buffer : Bytes) : Bytes := (buffer.drop r.first).take r.size

/-- What a call of `transform` leaves: what `in` describes, the content of the memory that `out` described on entry,
and what `out` describes now, unless an exception came out. -/
structure Transformed (ε : Type) where
  input : Bytes
  buffer : Bytes
  out : Except ε Range

/-- `afl::io::Transform`, with states `σ` and exceptions `ε`. -/
structure Transform (σ ε : Type) where
  transform : σ → Bytes → Bytes → Transformed ε × σ
  flush : σ → σ

/-! ### Reading -/

/-- A stream read through a transform. `pieces` is what the next reads of the underlying stream return; then its end
is reached. -/
structure TransformReaderStream (σ : Type) where
  pieces : List Bytes
  transform : σ
  input : Bytes
  numBytesRead : UInt64
  flushed : Bool

namespace TransformReaderStream

variable {σ ε : Type} (T : Transform σ ε)

def new (pieces : List Bytes) (transform : σ) : TransformReaderStream σ := ⟨pieces, transform, [], 0, false⟩

/-- A `read` in progress: how many bytes it has, and the memory it fills. -/
structure Reading (σ : Type) where
  did : Nat
  memory : Bytes
  stream : TransformReaderStream σ

/-- Fill the buffer again, or flush at the end of the stream. -/
def refill (s : TransformReaderStream σ) : TransformReaderStream σ :=
  let input := s.pieces.headD []
  let s := { s with pieces := s.pieces.tail, input := input }
  if input = [] then { s with transform := T.flush s.transform, flushed := true } else s

def round (r : Reading σ) : Loop.Round (Reading σ) (Except ε Nat × Reading σ) :=
  let (res, transform) := T.transform r.stream.transform r.stream.input (r.memory.drop r.did)
  let memory := r.memory.take r.did ++ res.buffer
  let s := { r.stream with transform := transform, input := res.input }
  match res.out with
  | .error e => .leave (.error e, ⟨r.did, memory, s⟩)
  | .ok out =>
    let did := r.did + out.size
    let s := { s with numBytesRead := s.numBytesRead + UInt64.ofNat out.size }
    if did ≥ memory.length then .leave (.ok did, ⟨did, memory, s⟩)
    else if s.input = [] then
      if s.flushed then .leave (.ok did, ⟨did, memory, s⟩) else .again ⟨did, memory, s.refill T⟩
    else .again ⟨did, memory, s⟩

/-- `read` into some memory comes to an end: with the number of bytes read or an exception, and the memory filled. -/
def Reads (s : TransformReaderStream σ) (memory : Bytes) (result : Except ε Nat × Reading σ) : Prop :=
  Loop.Ends (round T) ⟨0, memory, s⟩ result

/-- Reading into memories of one size until a read returns nothing gives the data. -/
inductive Delivers (size : Nat) : TransformReaderStream σ → Bytes → Prop
  | done {s memory r} (hsize : memory.length = size) (hread : s.Reads T memory (.ok 0, r)) : Delivers size s []
  | more {s memory did r data} (hsize : memory.length = size) (hread : s.Reads T memory (.ok did, r)) (hdid : did ≠ 0)
      (hrest : Delivers size r.stream data) : Delivers size s (r.memory.take did ++ data)

end TransformReaderStream

/-! ### Writing -/

/-- `afl::io::DataSink`, with states `τ`: the result of `handleData`, the data that is left, and the sink afterwards. -/
structure DataSink (τ ε : Type) where
  handleData : τ → Bytes → Except ε Bool × Bytes × τ

/-- A sink that transforms data for another sink, once it has a transform. -/
structure TransformDataSink (σ τ : Type) where
  transform : Option σ
  other : τ

namespace TransformDataSink

variable {σ τ ε : Type} (T : Transform σ ε) (S : DataSink τ ε)

/-- A `handleData` in progress, with its local buffer. -/
structure Handling (σ τ : Type) where
  data : Bytes
  result : Bool
  buffer : Bytes
  transform : σ
  other : τ

def round (h : Handling σ τ) : Loop.Round (Handling σ τ) (Except ε Bool × Handling σ τ) :=
  if h.data = [] then .leave (.ok h.result, h)
  else
    let (res, transform) := T.transform h.transform h.data h.buffer
    let h := { h with data := res.input, buffer := res.buffer, transform := transform }
    match res.out with
    | .error e => .leave (.error e, h)
    | .ok out =>
      if out.size = 0 then .again h
      else
        let (result, _, other) := S.handleData h.other (out.bytes h.buffer)
        match result with
        | .error e => .leave (.error e, { h with other := other })
        | .ok result => .again { h with result := result, other := other }

/-- `handleData` comes to an end: with its result, the data that is left, and the sink. `buffer` is what the local buffer
contains at first. -/
def Handles (s : TransformDataSink σ τ) (buffer data : Bytes)
    (r : Except ε Bool × Bytes × TransformDataSink σ τ) : Prop :=
  match s.transform with
  | none =>
    let (result, rest, other) := S.handleData s.other data
    r = (result, rest, { s with other := other })
  | some transform =>
    ∃ h, Loop.Ends (round T S) ⟨data, false, buffer, transform, s.other⟩ (r.1, h) ∧
      r.2 = (h.data, ⟨some h.transform, h.other⟩)

end TransformDataSink

end Afl.Io
