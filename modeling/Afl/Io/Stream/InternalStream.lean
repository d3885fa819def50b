import Afl.Base.Bytes

/-!
# A stream in memory

`InternalStream` holds the content of a file and a position. A position beyond the end is allowed; a write there fills
the gap with zeros. The streams here have write permission, and positions are small enough not to overflow a `size_t`,
so no operation fails.
-/

namespace Afl.Io

structure InternalStream where
  data : Bytes
  pos : Nat
  deriving DecidableEq

namespace InternalStream

def read (s : InternalStream) (size : Nat) : Bytes × InternalStream :=
  let out := (s.data.drop s.pos).take size
  (out, { s with pos := s.pos + out.length })

/-- The content with unwritten bytes before the position initialized (`appendN`). -/
def padded (s : InternalStream) : Bytes := s.data ++ List.replicate (s.pos - s.data.length) 0

/-- The number of bytes written: all of them. The bytes that `ensureSize` adds are overwritten. -/
def write (s : InternalStream) (m : Bytes) : Nat × InternalStream :=
  (m.length, ⟨s.padded.take s.pos ++ m ++ s.padded.drop (s.pos + m.length), s.pos + m.length⟩)

def setPos (s : InternalStream) (pos : Nat) : InternalStream := { s with pos := pos }

def getPos (s : InternalStream) : Nat := s.pos

def getSize (s : InternalStream) : Nat := s.data.length

/-- `Stream::fullWrite`, a loop over `write`. -/
def fullWrite : Nat → InternalStream → Bytes → InternalStream
  | 0, s, _ => s
  | fuel + 1, s, m =>
    if m = [] then s
    else
      let (n, s') := s.write m
      fullWrite fuel s' (m.drop n)

/-! ### What a write leaves -/

theorem length_padded (s : InternalStream) : s.padded.length = max s.data.length s.pos := by
  rw [padded, List.length_append, List.length_replicate]
  omega

theorem padded_of_le {s : InternalStream} (h : s.pos ≤ s.data.length) : s.padded = s.data := by
  rw [padded, Nat.sub_eq_zero_of_le h, List.replicate_zero, List.append_nil]

theorem length_take_padded (s : InternalStream) : (s.padded.take s.pos).length = s.pos := by
  rw [List.length_take, length_padded]
  omega

theorem write_pos (s : InternalStream) (m : Bytes) : (s.write m).2.pos = s.pos + m.length := rfl

theorem length_write (s : InternalStream) (m : Bytes) :
    (s.write m).2.data.length = max s.data.length (s.pos + m.length) := by
  have htake := length_take_padded s
  have hpadded := length_padded s
  simp only [write, List.length_append, List.length_drop, htake, hpadded]
  omega

theorem padded_write (s : InternalStream) (m : Bytes) : (s.write m).2.padded = (s.write m).2.data := by
  apply padded_of_le
  rw [length_write, write_pos]
  exact le_max_right _ _

theorem write_nil {s : InternalStream} (h : s.pos ≤ s.data.length) : (s.write []).2 = s := by
  simp only [write, padded_of_le h, List.length_nil, Nat.add_zero, List.append_nil, List.take_append_drop]

theorem write_write (s : InternalStream) (a b : Bytes) : ((s.write a).2.write b).2 = (s.write (a ++ b)).2 := by
  have htake := length_take_padded s
  have hhead : (s.padded.take s.pos ++ a).length = s.pos + a.length := by
    rw [List.length_append, htake]
  have hdata : (s.write a).2.padded = s.padded.take s.pos ++ a ++ s.padded.drop (s.pos + a.length) := padded_write s a
  have hfirst : (s.write a).2.padded.take (s.pos + a.length) = s.padded.take s.pos ++ a := by
    rw [hdata, ← hhead, List.take_left]
  have hrest : (s.write a).2.padded.drop (s.pos + a.length + b.length) = s.padded.drop (s.pos + (a ++ b).length) := by
    rw [hdata, ← List.drop_drop, ← hhead, List.drop_left, List.drop_drop, hhead, List.length_append, Nat.add_assoc]
  have hlhs : ((s.write a).2.write b).2 = ⟨(s.write a).2.padded.take (s.pos + a.length) ++ b ++
      (s.write a).2.padded.drop (s.pos + a.length + b.length), s.pos + a.length + b.length⟩ := rfl
  rw [hlhs, hfirst, hrest]
  simp only [write, List.length_append, List.append_assoc, Nat.add_assoc]

theorem fullWrite_eq (s : InternalStream) (m : Bytes) :
    fullWrite m.length s m = if m = [] then s else (s.write m).2 := by
  cases m with
  | nil => rfl
  | cons ch m =>
    have hdrop : (ch :: m).drop (s.write (ch :: m)).1 = [] := List.drop_length
    rw [List.length_cons, fullWrite, if_neg (List.cons_ne_nil _ _), if_neg (List.cons_ne_nil _ _)]
    simp only [hdrop]
    cases m.length <;> rfl

end InternalStream

end Afl.Io
