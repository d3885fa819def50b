import Afl.Io.Stream.InternalStream
import Afl.Lib.Machine
import Afl.Lib.Sparse

/-!
# A stream in memory is a sparse array

`InternalStream::write` as it works on its `GrowableMemory`, where new bytes are not initialized unless `appendN` is used,
with its check for a range that a `size_t` cannot hold. The stream behaves like a sparse array with a cursor.
-/

namespace Afl.Io

/-! ### Growable memory -/

def appendN (data : Bytes) (what : UInt8) (count : Nat) : Bytes := data ++ List.replicate count what

/-- The new bytes are whatever was in the memory: `fresh`. -/
def ensureSize (fresh : Nat → UInt8) (data : Bytes) (newSize : Nat) : Bytes :=
  data ++ (List.range (newSize - data.length)).map fun i => fresh (data.length + i)

/-- The number of elements of `subrange(pos, len)`. -/
def subrangeSize (data : Bytes) (pos len : Nat) : Nat := min len (data.length - min pos data.length)

/-- The data after `subrange(pos, len).copyFrom(m)`, and the size of what was copied. -/
def copyToSubrange (data : Bytes) (pos len : Nat) (m : Bytes) : Bytes × Nat :=
  let amount := min (subrangeSize data pos len) m.length
  (data.take pos ++ m.take amount ++ data.drop (pos + amount), amount)

namespace InternalStream

/-- `InternalStream::write` where a `size_t` has the given number of bits; `none` where it throws. -/
def writeMemory (bits : Nat) (fresh : Nat → UInt8) (s : InternalStream) (m : Bytes) : Option (Nat × InternalStream) :=
  let stop := (s.pos + m.length) % 2 ^ bits
  if stop < s.pos then none
  else
    let data := if s.data.length < s.pos then appendN s.data 0 (s.pos - s.data.length) else s.data
    let data := ensureSize fresh data stop
    let (data, amount) := copyToSubrange data s.pos m.length m
    some (amount, ⟨data, s.pos + amount⟩)

/-- `InternalStream::setPos`; `none` where it throws. -/
def setPosChecked (bits : Nat) (s : InternalStream) (pos : Nat) : Option InternalStream :=
  if pos % 2 ^ bits ≠ pos then none else some (s.setPos pos)

theorem data_of_gap (s : InternalStream) :
    (if s.data.length < s.pos then appendN s.data 0 (s.pos - s.data.length) else s.data) = s.padded := by
  unfold appendN padded
  split_ifs with h
  · rfl
  · rw [Nat.sub_eq_zero_of_le (Nat.le_of_not_lt h), List.replicate_zero, List.append_nil]

theorem copyToSubrange_ensureSize (fresh : Nat → UInt8) {data m : Bytes} {pos : Nat} (h : pos ≤ data.length) :
    copyToSubrange (ensureSize fresh data (pos + m.length)) pos m.length m =
      (data.take pos ++ m ++ data.drop (pos + m.length), m.length) := by
  have hlength : (ensureSize fresh data (pos + m.length)).length = max data.length (pos + m.length) := by
    rw [ensureSize, List.length_append, List.length_map, List.length_range]
    omega
  have hamount : min (subrangeSize (ensureSize fresh data (pos + m.length)) pos m.length) m.length = m.length := by
    rw [subrangeSize, hlength]
    omega
  have htake : (ensureSize fresh data (pos + m.length)).take pos = data.take pos := List.take_append_of_le_length h
  have hdrop : (ensureSize fresh data (pos + m.length)).drop (pos + m.length) = data.drop (pos + m.length) := by
    rw [ensureSize, List.drop_append, List.append_right_eq_self]
    exact List.drop_eq_nil_of_le (by rw [List.length_map, List.length_range])
  rw [copyToSubrange, hamount, htake, hdrop, List.take_length]

theorem writeMemory_of_lt {bits : Nat} (fresh : Nat → UInt8) {s : InternalStream} {m : Bytes}
    (h : s.pos + m.length < 2 ^ bits) : s.writeMemory bits fresh m = some (s.write m) := by
  have hpadded : s.pos ≤ s.padded.length := by
    rw [length_padded]
    exact le_max_right _ _
  rw [writeMemory]
  dsimp only
  rw [Nat.mod_eq_of_lt h, if_neg (by omega), data_of_gap, copyToSubrange_ensureSize fresh hpadded]
  rfl

theorem writeMemory_of_le {bits : Nat} (fresh : Nat → UInt8) {s : InternalStream} {m : Bytes} (hpos : s.pos < 2 ^ bits)
    (hm : m.length < 2 ^ bits) (h : 2 ^ bits ≤ s.pos + m.length) : s.writeMemory bits fresh m = none := by
  have hstop : (s.pos + m.length) % 2 ^ bits < s.pos := by
    rw [Nat.mod_eq_sub_mod h, Nat.mod_eq_of_lt (by omega)]
    omega
  rw [writeMemory]
  exact if_pos hstop

end InternalStream

/-! ### Calls -/

/-- The calls on a stream; a buffer has no more bytes than a `size_t` can count. -/
inductive ArrayCall (bits : Nat)
  | read (size : Nat)
  | write (m : Bytes) (h : m.length < 2 ^ bits)
  | setPos (pos : Nat)
  | getPos
  | getSize

inductive ArrayResult
  | bytes (out : Bytes)
  | count (n : Nat)
  | done
  | thrown
  deriving DecidableEq

/-- A call on the stream. What is in fresh memory may depend on anything. -/
def InternalStream.callMemory {bits : Nat} (fresh : InternalStream → Nat → UInt8) (s : InternalStream) :
    ArrayCall bits → ArrayResult × InternalStream
  | .read size => (.bytes (s.read size).1, (s.read size).2)
  | .write m _ =>
    match s.writeMemory bits (fresh s) m with
    | some (n, s') => (.count n, s')
    | none => (.thrown, s)
  | .setPos pos =>
    match s.setPosChecked bits pos with
    | some s' => (.done, s')
    | none => (.thrown, s)
  | .getPos => (.count s.getPos, s)
  | .getSize => (.count s.getSize, s)

/-- An array of bytes with a cursor. Bytes that were never written are zero. -/
structure ArrayCursor where
  array : SparseArray (0 : UInt8)
  cursor : Nat

/-- A call on the array: reads stop at its size, a position is only remembered, and a write extends the array to the end of
its range. What does not fit into memory is refused. -/
def ArrayCursor.call {bits : Nat} (a : ArrayCursor) : ArrayCall bits → ArrayResult × ArrayCursor
  | .read size =>
    let out := a.array.read a.cursor size
    (.bytes out, { a with cursor := a.cursor + out.length })
  | .write m _ =>
    if a.cursor + m.length < 2 ^ bits then (.count m.length, ⟨a.array.write a.cursor m, a.cursor + m.length⟩)
    else (.thrown, a)
  | .setPos pos => if pos < 2 ^ bits then (.done, { a with cursor := pos }) else (.thrown, a)
  | .getPos => (.count a.cursor, a)
  | .getSize => (.count a.array.size, a)

/-- The stream holds the values of the array, up to its size, and all positions are `size_t` values. -/
structure Represents (bits : Nat) (s : InternalStream) (a : ArrayCursor) : Prop where
  data : s.data = a.array.contents
  pos : s.pos = a.cursor
  pos_lt : s.pos < 2 ^ bits
  size_lt : s.data.length < 2 ^ bits

namespace Represents

variable {bits : Nat} {s : InternalStream} {a : ArrayCursor}

theorem write (h : Represents bits s a) {m : Bytes} (hm : s.pos + m.length < 2 ^ bits) :
    Represents bits (s.write m).2 ⟨a.array.write s.pos m, s.pos + m.length⟩ where
  data := by
    have hdrop : s.padded.drop (s.pos + m.length) = s.data.drop (s.pos + m.length) := by
      rw [InternalStream.padded, List.drop_append, List.append_right_eq_self]
      exact List.drop_eq_nil_of_le (by rw [List.length_replicate]; omega)
    rw [SparseArray.contents_write, ← a.array.length_contents, ← h.data, ← hdrop]
    rfl
  pos := rfl
  pos_lt := hm
  size_lt := by
    rw [InternalStream.length_write]
    exact max_lt h.size_lt hm

theorem read (h : Represents bits s a) {size : Nat} (hout : (s.read size).1 = a.array.read a.cursor size) :
    Represents bits (s.read size).2 { a with cursor := a.cursor + (a.array.read a.cursor size).length } where
  data := h.data
  pos := by
    rw [← hout, ← h.pos]
    rfl
  pos_lt := by
    have hlength : (s.read size).1.length = min size (s.data.length - s.pos) := by
      rw [InternalStream.read, List.length_take, List.length_drop]
    have hpos : (s.read size).2.pos = s.pos + (s.read size).1.length := rfl
    have hbounds := h.pos_lt
    have hsize := h.size_lt
    omega
  size_lt := h.size_lt

theorem call (h : Represents bits s a) (fresh : InternalStream → Nat → UInt8) (c : ArrayCall bits) :
    (s.callMemory fresh c).1 = (a.call c).1 ∧ Represents bits (s.callMemory fresh c).2 (a.call c).2 := by
  cases c with
  | read size =>
    have hout : (s.read size).1 = a.array.read a.cursor size := by
      rw [SparseArray.read_eq, ← h.data, ← h.pos]
      rfl
    exact ⟨congrArg ArrayResult.bytes hout, h.read hout⟩
  | write m hm =>
    rw [InternalStream.callMemory, ArrayCursor.call, ← h.pos]
    split_ifs with hfits
    · rw [InternalStream.writeMemory_of_lt (fresh s) hfits]
      exact ⟨rfl, h.write hfits⟩
    · rw [InternalStream.writeMemory_of_le (fresh s) h.pos_lt hm (Nat.le_of_not_lt hfits)]
      exact ⟨rfl, h⟩
  | setPos pos =>
    rw [InternalStream.callMemory, ArrayCursor.call, InternalStream.setPosChecked]
    split_ifs with hsame hfits hfits
    · exact (hsame (Nat.mod_eq_of_lt hfits)).elim
    · exact ⟨rfl, h⟩
    · exact ⟨rfl, h.data, rfl, hfits, h.size_lt⟩
    · rw [not_not] at hsame
      exact (hfits (hsame ▸ Nat.mod_lt _ (Nat.two_pow_pos bits))).elim
  | getPos => exact ⟨congrArg ArrayResult.count h.pos, h⟩
  | getSize =>
    refine ⟨congrArg ArrayResult.count ?_, h⟩
    rw [InternalStream.getSize, h.data, SparseArray.length_contents]

end Represents

open Machine in
/-- **`InternalStream` is a sparse array**: a new stream answers every list of calls as an empty array does. -/
theorem internalStream_sparse (bits : Nat) (fresh : InternalStream → Nat → UInt8) (calls : List (ArrayCall bits)) :
    outputs (InternalStream.callMemory fresh) ⟨[], 0⟩ calls = outputs ArrayCursor.call ⟨.empty, 0⟩ calls := by
  have hnew : Represents bits ⟨[], 0⟩ ⟨.empty, 0⟩ :=
    ⟨rfl, rfl, Nat.two_pow_pos bits, Nat.two_pow_pos bits⟩
  exact (outputs_eq (R := Represents bits) (C := fun _ _ => True) (f := InternalStream.callMemory fresh)
    (g := ArrayCursor.call) (fun h _ => h.call fresh _) hnew calls fun _ _ _ _ => trivial).1

end Afl.Io
