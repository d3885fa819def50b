import Afl.Io.Stream.InternalStream
import Afl.Lib.Machine

/-!
# Buffered access to a stream

`BufferedStream` keeps one buffer, used for bytes read ahead or for bytes not yet written. The buffer only changes when
the underlying stream sees the bytes, not what the user sees, apart from one case: writing nothing at a position beyond
the end extends an `InternalStream`, but leaves a `BufferedStream` nothing to write.
-/

namespace Afl.Io

inductive Mode
  | neutral
  | reading
  | writing
  deriving DecidableEq

/-- `sizeof(m_rawBuffer)`. -/
def bufferSize : Nat := 1024

theorem bufferSize_pos : 0 < bufferSize := by decide

/-- `m_buffer` has two meanings: bytes read but not consumed when reading, and room of which the first `m_bufferFill`
bytes are not yet written when writing. These are `buffer` and `fill`. -/
structure BufferedStream where
  mode : Mode
  stream : InternalStream
  buffer : Bytes
  fill : Bytes

namespace BufferedStream

def new (s : InternalStream) : BufferedStream := ⟨.neutral, s, [], []⟩

def refillBuffer (b : BufferedStream) : BufferedStream :=
  let (out, s) := b.stream.read bufferSize
  { b with buffer := out, stream := s }

def flushBuffer (b : BufferedStream) : BufferedStream :=
  if b.fill ≠ [] then { b with stream := b.stream.fullWrite b.fill.length b.fill, fill := [] } else b

/-- The part of `setMode` for the old mode. -/
def leaveMode (b : BufferedStream) : BufferedStream :=
  match b.mode with
  | .reading =>
    if b.buffer ≠ [] then { b with stream := b.stream.setPos (b.stream.getPos - b.buffer.length) } else b
  | .writing => b.flushBuffer
  | .neutral => b

/-- The part of `setMode` for the new mode. -/
def enterMode (b : BufferedStream) (m : Mode) : BufferedStream :=
  match m with
  | .writing => { b with mode := m, fill := [] }
  | .reading => { b with mode := m, buffer := [] }
  | .neutral => { b with mode := m }

def setMode (b : BufferedStream) (m : Mode) : BufferedStream :=
  if m ≠ b.mode then b.leaveMode.enterMode m else b

def prepareRead (b : BufferedStream) : BufferedStream :=
  let b := b.setMode .reading
  if b.buffer = [] then b.refillBuffer else b

def readByte (b : BufferedStream) : Option UInt8 × BufferedStream :=
  let b := b.prepareRead
  (b.buffer.head?, { b with buffer := b.buffer.tail })

def peekByte (b : BufferedStream) : Option UInt8 × BufferedStream :=
  let b := b.prepareRead
  (b.buffer.head?, b)

def read : Nat → BufferedStream → Bytes × BufferedStream
  | 0, b => ([], b)
  | size + 1, b =>
    match b.readByte with
    | (none, b) => ([], b)
    | (some ch, b) =>
      let (out, b) := read size b
      (ch :: out, b)

/-- Copy bytes into the buffer, and write it when it is full. -/
def copyToBuffer (b : BufferedStream) (copied : Bytes) : BufferedStream :=
  let b := { b with fill := b.fill ++ copied }
  if b.fill.length ≥ bufferSize then b.flushBuffer else b

def writeLoop : Nat → BufferedStream → Bytes → Nat × BufferedStream
  | 0, b, _ => (0, b)
  | fuel + 1, b, m =>
    if m = [] then (0, b)
    else if b.fill = [] ∧ m.length ≥ bufferSize then
      -- more than one buffer full: write directly
      let (now, s) := b.stream.write m
      let (did, b) := writeLoop fuel { b with stream := s } (m.drop now)
      (now + did, b)
    else
      -- write through buffer
      let copied := m.take (bufferSize - b.fill.length)
      let (did, b) := writeLoop fuel (b.copyToBuffer copied) (m.drop copied.length)
      (copied.length + did, b)

def write (b : BufferedStream) (m : Bytes) : Nat × BufferedStream := writeLoop m.length (b.setMode .writing) m

def setPos (b : BufferedStream) (pos : Nat) : BufferedStream :=
  let b := b.setMode .neutral
  { b with stream := b.stream.setPos pos }

def getPos (b : BufferedStream) : Nat :=
  match b.mode with
  | .reading => b.stream.getPos - b.buffer.length
  | .writing => b.stream.getPos + b.fill.length
  | .neutral => b.stream.getPos

def getSize (b : BufferedStream) : Nat :=
  match b.mode with
  | .writing => max b.stream.getSize (b.stream.getPos + b.fill.length)
  | .reading => b.stream.getSize
  | .neutral => b.stream.getSize

def flush (b : BufferedStream) : BufferedStream := b.setMode .neutral

end BufferedStream

/-! ### Calls -/

inductive StreamCall
  | read (size : Nat)
  | write (m : Bytes)
  | setPos (pos : Nat)
  | peek
  | flush
  | getPos
  | getSize

inductive StreamResult
  | bytes (out : Bytes)
  | count (n : Nat)
  | byte (ch : Option UInt8)
  | done
  deriving DecidableEq

def BufferedStream.call (b : BufferedStream) : StreamCall → StreamResult × BufferedStream
  | .read size => (.bytes (b.read size).1, (b.read size).2)
  | .write m => (.count (b.write m).1, (b.write m).2)
  | .setPos pos => (.done, b.setPos pos)
  | .peek => (.byte b.peekByte.1, b.peekByte.2)
  | .flush => (.done, b.flush)
  | .getPos => (.count b.getPos, b)
  | .getSize => (.count b.getSize, b)

/-- A call on the underlying stream itself. Peeking is reading a byte and going back. -/
def InternalStream.call (s : InternalStream) : StreamCall → StreamResult × InternalStream
  | .read size => (.bytes (s.read size).1, (s.read size).2)
  | .write m => (.count (s.write m).1, (s.write m).2)
  | .setPos pos => (.done, s.setPos pos)
  | .peek => (.byte (s.read 1).1.head?, s)
  | .flush => (.done, s)
  | .getPos => (.count s.getPos, s)
  | .getSize => (.count s.getSize, s)

namespace BufferedStream

variable {b : BufferedStream} {d : InternalStream}

/-! ### The buffer and the stream -/

/-- In writing mode, the user sees the stream after the bytes that are not yet written. -/
structure Pending (b : BufferedStream) (d : InternalStream) : Prop where
  mode : b.mode = .writing
  room : b.fill.length < bufferSize
  empty : b.fill = [] → b.stream = d
  nonempty : b.fill ≠ [] → (b.stream.write b.fill).2 = d

/-- What the user of `b` sees is `d`. -/
def Shows (b : BufferedStream) (d : InternalStream) : Prop :=
  match b.mode with
  | .neutral => b.stream = d
  | .reading => b.stream = ⟨d.data, d.pos + b.buffer.length⟩ ∧ b.buffer <+: d.data.drop d.pos
  | .writing => Pending b d ∧ d.pos ≤ d.data.length

theorem shows_neutral (h : b.mode = .neutral) : b.Shows d ↔ b.stream = d := by
  rw [Shows, h]

theorem shows_reading (h : b.mode = .reading) :
    b.Shows d ↔ b.stream = ⟨d.data, d.pos + b.buffer.length⟩ ∧ b.buffer <+: d.data.drop d.pos := by
  rw [Shows, h]

theorem shows_writing (h : b.mode = .writing) : b.Shows d ↔ Pending b d ∧ d.pos ≤ d.data.length := by
  rw [Shows, h]

theorem shows_new (s : InternalStream) : (new s).Shows s := rfl

theorem Pending.stream_flushBuffer (h : Pending b d) : b.flushBuffer.stream = d := by
  rw [flushBuffer]
  split_ifs with hfill
  · rw [← h.nonempty hfill]
    exact (InternalStream.fullWrite_eq b.stream b.fill).trans (if_neg hfill)
  · exact h.empty (not_not.mp hfill)

theorem Shows.stream_leaveMode (h : b.Shows d) : b.leaveMode.stream = d := by
  rcases hmode : b.mode
  · rw [shows_neutral hmode] at h
    simp only [leaveMode, hmode, h]
  · obtain ⟨hstream, hbuffer⟩ := (shows_reading hmode).mp h
    simp only [leaveMode, hmode]
    split_ifs with hempty
    · simp only [hstream, InternalStream.setPos, InternalStream.getPos, Nat.add_sub_cancel]
    · rw [hstream, not_not.mp hempty]
      rfl
  · simp only [leaveMode, hmode]
    exact ((shows_writing hmode).mp h).1.stream_flushBuffer

theorem mode_setMode (b : BufferedStream) (m : Mode) : (b.setMode m).mode = m := by
  rw [setMode]
  split_ifs with hmode
  · cases m <;> rfl
  · exact (not_not.mp hmode).symm

theorem stream_enterMode (b : BufferedStream) (m : Mode) : (b.enterMode m).stream = b.stream := by
  cases m <;> rfl

theorem Shows.stream_flush (h : b.Shows d) : b.flush.stream = d := by
  rw [flush, setMode]
  split_ifs with hmode
  · rw [stream_enterMode]
    exact h.stream_leaveMode
  · exact (shows_neutral (not_not.mp hmode).symm).mp h

theorem Shows.flush (h : b.Shows d) : b.flush.Shows d :=
  (shows_neutral (mode_setMode b .neutral)).mpr h.stream_flush

theorem Shows.setMode_reading (h : b.Shows d) : (b.setMode .reading).Shows d := by
  rw [setMode]
  split_ifs with hmode
  · refine (shows_reading rfl).mpr ⟨?_, List.nil_prefix⟩
    exact h.stream_leaveMode
  · exact h

theorem Shows.setMode_writing (h : b.Shows d) : Pending (b.setMode .writing) d := by
  rw [setMode]
  split_ifs with hmode
  · exact ⟨rfl, bufferSize_pos, fun _ => h.stream_leaveMode, fun hfill => absurd rfl hfill⟩
  · exact ((shows_writing (not_not.mp hmode).symm).mp h).1

/-! ### Reading -/

theorem Shows.prepareRead (h : b.Shows d) :
    b.prepareRead.mode = .reading ∧ b.prepareRead.Shows d ∧
      (b.prepareRead.buffer = [] → d.data.drop d.pos = []) := by
  have hmode := mode_setMode b .reading
  have hshows := h.setMode_reading
  rw [BufferedStream.prepareRead]
  split_ifs with hempty
  · rw [shows_reading hmode, hempty, List.length_nil, Nat.add_zero] at hshows
    have hbuffer : (b.setMode .reading).refillBuffer.buffer = (d.data.drop d.pos).take bufferSize := by
      simp only [refillBuffer, hshows.1, InternalStream.read]
    have hmode : (b.setMode .reading).refillBuffer.mode = .reading := hmode
    refine ⟨hmode, (shows_reading hmode).mpr ⟨?_, ?_⟩, ?_⟩
    · rw [hbuffer]
      simp only [refillBuffer, hshows.1, InternalStream.read]
    · rw [hbuffer]
      exact List.take_prefix _ _
    · rw [hbuffer, List.take_eq_nil_iff]
      exact fun h => h.resolve_left bufferSize_pos.ne'
  · exact ⟨hmode, hshows, fun h => absurd h hempty⟩

theorem Shows.head_prepareRead (h : b.Shows d) : b.prepareRead.buffer.head? = (d.data.drop d.pos).head? := by
  obtain ⟨hmode, hshows, hend⟩ := h.prepareRead
  obtain ⟨-, rest, hbuffer⟩ := (shows_reading hmode).mp hshows
  cases hprepared : b.prepareRead.buffer with
  | nil => rw [hend hprepared]
  | cons ch buffer => rw [← hbuffer, hprepared, List.cons_append, List.head?_cons, List.head?_cons]

theorem Shows.readByte (h : b.Shows d) :
    b.readByte.1 = (d.data.drop d.pos).head? ∧
      b.readByte.2.Shows ⟨d.data, d.pos + (d.data.drop d.pos).head?.toList.length⟩ := by
  obtain ⟨hmode, hshows, hend⟩ := h.prepareRead
  obtain ⟨hstream, hbuffer⟩ := (shows_reading hmode).mp hshows
  have hmode : b.readByte.2.mode = .reading := hmode
  refine ⟨h.head_prepareRead, (shows_reading hmode).mpr ?_⟩
  rw [← h.head_prepareRead]
  cases hprepared : b.prepareRead.buffer with
  | nil =>
    rw [hprepared] at hstream
    simp only [BufferedStream.readByte, hprepared]
    exact ⟨hstream, List.nil_prefix⟩
  | cons ch buffer =>
    rw [hprepared] at hstream hbuffer
    simp only [BufferedStream.readByte, hprepared]
    refine ⟨?_, ?_⟩
    · rw [hstream, List.length_cons]
      simp only [List.tail_cons, List.head?_cons, Option.toList_some, List.length_singleton]
      congr 1
      omega
    · obtain ⟨rest, hrest⟩ := hbuffer
      refine ⟨rest, ?_⟩
      simp only [List.tail_cons, List.head?_cons, Option.toList_some, List.length_singleton]
      rw [← List.drop_drop, ← hrest]
      rfl

theorem Shows.read (size : Nat) (h : b.Shows d) :
    (b.read size).1 = (d.read size).1 ∧ (b.read size).2.Shows (d.read size).2 := by
  induction size generalizing b d with
  | zero =>
    rw [InternalStream.read, List.take_zero]
    exact ⟨rfl, h⟩
  | succ size ih =>
    obtain ⟨hbyte, hshows⟩ := h.readByte
    rcases hread : b.readByte with ⟨ch, b'⟩
    rw [hread] at hbyte hshows
    cases hrest : d.data.drop d.pos with
    | nil =>
      rw [hrest] at hbyte hshows
      simp only [List.head?_nil] at hbyte
      simp only [BufferedStream.read, hread, hbyte, InternalStream.read, hrest, List.take_nil]
      exact ⟨trivial, hshows⟩
    | cons next rest =>
      rw [hrest] at hbyte hshows
      simp only [List.head?_cons, Option.toList_some, List.length_singleton] at hbyte hshows
      obtain ⟨hout, hnext⟩ := ih hshows
      have htail : d.data.drop (d.pos + 1) = rest := by
        rw [← List.drop_drop, hrest]
        rfl
      simp only [InternalStream.read, htail] at hout hnext
      simp only [BufferedStream.read, hread, hbyte, InternalStream.read, hrest, List.take_succ_cons, hout,
        List.length_cons]
      refine ⟨trivial, ?_⟩
      rw [Nat.add_comm (rest.take size).length 1, ← Nat.add_assoc]
      exact hnext

/-! ### Writing -/

theorem Pending.write_append (h : Pending b d) (m : Bytes) : (b.stream.write (b.fill ++ m)).2 = (d.write m).2 := by
  by_cases hfill : b.fill = []
  · rw [hfill, List.nil_append, h.empty hfill]
  · rw [← InternalStream.write_write, h.nonempty hfill]

theorem pos_write_le (d : InternalStream) (m : Bytes) : (d.write m).2.pos ≤ (d.write m).2.data.length := by
  rw [InternalStream.length_write, InternalStream.write_pos]
  exact le_max_right _ _

theorem Pending.copyToBuffer (h : Pending b d) {copied : Bytes} (hcopied : copied ≠ []) :
    Pending (b.copyToBuffer copied) (d.write copied).2 := by
  have hfill : b.fill ++ copied ≠ [] := fun hnil => hcopied (List.append_eq_nil_iff.mp hnil).2
  have hwrite := h.write_append copied
  rw [BufferedStream.copyToBuffer]
  split_ifs with hfull
  · rw [flushBuffer, if_pos hfill]
    refine ⟨h.mode, bufferSize_pos, fun _ => ?_, fun hfill => absurd rfl hfill⟩
    rw [← hwrite]
    exact (InternalStream.fullWrite_eq _ _).trans (if_neg hfill)
  · exact ⟨h.mode, Nat.not_le.mp hfull, fun hnil => absurd hnil hfill, fun _ => hwrite⟩

theorem Pending.writeLoop {fuel : Nat} {m : Bytes} (h : Pending b d) (hend : m = [] → d.pos ≤ d.data.length)
    (hfuel : m.length ≤ fuel) :
    (writeLoop fuel b m).1 = m.length ∧ (writeLoop fuel b m).2.Shows (d.write m).2 := by
  induction fuel generalizing b d m with
  | zero =>
    obtain rfl := List.eq_nil_of_length_eq_zero (Nat.le_zero.mp hfuel)
    rw [InternalStream.write_nil (hend rfl)]
    exact ⟨rfl, (shows_writing h.mode).mpr ⟨h, hend rfl⟩⟩
  | succ fuel ih =>
    by_cases hm : m = []
    · subst hm
      rw [InternalStream.write_nil (hend rfl), BufferedStream.writeLoop, if_pos rfl]
      exact ⟨rfl, (shows_writing h.mode).mpr ⟨h, hend rfl⟩⟩
    rw [BufferedStream.writeLoop, if_neg hm]
    split_ifs with hdirect
    · have hpending : Pending { b with stream := (b.stream.write m).2 } (d.write m).2 := by
        rw [h.empty hdirect.1]
        exact ⟨h.mode, h.room, fun _ => rfl, fun hfill => absurd hdirect.1 hfill⟩
      have hrest : m.drop (b.stream.write m).1 = [] := List.drop_length
      have hloop := ih hpending (m := []) (fun _ => pos_write_le d m) (Nat.zero_le _)
      rw [InternalStream.write_nil (pos_write_le d m)] at hloop
      simp only [hrest, hloop.1]
      exact ⟨rfl, hloop.2⟩
    · have hroom := h.room
      have hsplit := List.prefix_iff_eq_append.mp (List.take_prefix (bufferSize - b.fill.length) m)
      generalize hcopied : m.take (bufferSize - b.fill.length) = copied at hsplit
      have hne : copied ≠ [] := by
        rintro rfl
        rcases List.take_eq_nil_iff.mp hcopied with hzero | hnil
        · omega
        · exact hm hnil
      have hlength := congrArg List.length hsplit
      have hpositive := List.length_pos_of_ne_nil hne
      rw [List.length_append] at hlength
      have hloop := ih (h.copyToBuffer hne) (m := m.drop copied.length) (fun _ => pos_write_le d _) (by omega)
      rw [InternalStream.write_write, hsplit] at hloop
      simp only [hloop.1]
      exact ⟨hlength, hloop.2⟩

theorem Shows.write (h : b.Shows d) {m : Bytes} (hend : m = [] → d.pos ≤ d.data.length) :
    (b.write m).1 = m.length ∧ (b.write m).2.Shows (d.write m).2 :=
  h.setMode_writing.writeLoop hend le_rfl

/-! ### Positions and sizes -/

theorem Shows.getPos (h : b.Shows d) : b.getPos = d.getPos := by
  rcases hmode : b.mode
  · rw [BufferedStream.getPos, hmode, (shows_neutral hmode).mp h]
  · simp only [BufferedStream.getPos, hmode, ((shows_reading hmode).mp h).1, InternalStream.getPos,
      Nat.add_sub_cancel]
  · have hpending := ((shows_writing hmode).mp h).1
    have hpos : (b.stream.write (b.fill ++ [])).2.pos = (d.write []).2.pos := by rw [hpending.write_append]
    rw [List.append_nil, InternalStream.write_pos, InternalStream.write_pos, List.length_nil, Nat.add_zero] at hpos
    simpa only [BufferedStream.getPos, hmode, InternalStream.getPos] using hpos

theorem Shows.getSize (h : b.Shows d) : b.getSize = d.getSize := by
  rcases hmode : b.mode
  · rw [BufferedStream.getSize, hmode, (shows_neutral hmode).mp h]
  · simp only [BufferedStream.getSize, hmode, ((shows_reading hmode).mp h).1, InternalStream.getSize]
  · obtain ⟨hpending, hend⟩ := (shows_writing hmode).mp h
    have hlength : (b.stream.write (b.fill ++ [])).2.data.length = (d.write []).2.data.length := by
      rw [hpending.write_append]
    rw [List.append_nil, InternalStream.length_write, InternalStream.write_nil hend] at hlength
    simpa only [BufferedStream.getSize, hmode, InternalStream.getSize, InternalStream.getPos] using hlength

theorem Shows.setPos (h : b.Shows d) (pos : Nat) : (b.setPos pos).Shows (d.setPos pos) := by
  have hmode : (b.setPos pos).mode = .neutral := mode_setMode b .neutral
  have hstream : (b.setMode .neutral).stream = d := h.stream_flush
  rw [shows_neutral hmode, BufferedStream.setPos]
  simp only [hstream]

end BufferedStream

/-! ### Runs -/

/-- The call is not an empty write beyond the end. -/
def InternalStream.Settles (d : InternalStream) : StreamCall → Prop
  | .write m => m = [] → d.getPos ≤ d.getSize
  | _ => True

namespace BufferedStream

variable {b : BufferedStream} {d : InternalStream}

theorem shows_call {a : StreamCall} (h : b.Shows d) (ha : d.Settles a) :
    (b.call a).1 = (d.call a).1 ∧ (b.call a).2.Shows (d.call a).2 := by
  cases a with
  | read size => exact ⟨congrArg _ (h.read size).1, (h.read size).2⟩
  | write m => exact ⟨congrArg _ (h.write ha).1, (h.write ha).2⟩
  | setPos pos => exact ⟨rfl, h.setPos pos⟩
  | peek =>
    refine ⟨congrArg StreamResult.byte (h.head_prepareRead.trans ?_), h.prepareRead.2.1⟩
    cases hrest : d.data.drop d.pos with
    | nil => rw [InternalStream.read, hrest, List.take_nil]
    | cons ch rest => rw [InternalStream.read, hrest, List.take_succ_cons, List.head?_cons, List.head?_cons]
  | flush => exact ⟨rfl, h.flush⟩
  | getPos => exact ⟨congrArg _ h.getPos, h⟩
  | getSize => exact ⟨congrArg _ h.getSize, h⟩

theorem not_shows_call {a : StreamCall} (h : b.Shows d) (ha : ¬d.Settles a) :
    (b.call a).2.flush.stream ≠ (d.call a).2 := by
  obtain ⟨rfl, hbeyond⟩ : a = .write [] ∧ d.data.length < d.pos := by
    cases a with
    | write m =>
      rw [InternalStream.Settles, Classical.not_imp, Nat.not_le] at ha
      exact ⟨by rw [ha.1], ha.2⟩
    | _ => exact absurd trivial ha
  have hpending := h.setMode_writing
  -- the pending bytes would have brought the end to the position
  have hempty : (b.setMode .writing).fill = [] := by
    by_contra hfill
    rw [← hpending.nonempty hfill] at hbeyond
    exact absurd (pos_write_le _ _) (Nat.not_le.mpr hbeyond)
  have hflush : (b.call (.write [])).2.flush.stream = d := by
    show ((b.setMode .writing).setMode .neutral).stream = d
    rw [setMode, if_pos (by rw [hpending.mode]; decide), stream_enterMode, leaveMode, hpending.mode]
    exact hpending.stream_flushBuffer
  intro heq
  have hlength := InternalStream.length_write d []
  have hsame : d = (d.write []).2 := hflush.symm.trans heq
  rw [← hsame, List.length_nil, Nat.add_zero] at hlength
  omega

end BufferedStream

open Machine in
/-- **A buffered stream behaves like the stream itself**, exactly as long as nothing is written beyond the end in a
write of no bytes: all calls answer alike, and flushing at any point leaves the underlying stream alike. -/
theorem buffered_iff_settles (s : InternalStream) (calls : List StreamCall) :
    (∀ before, before <+: calls →
      outputs BufferedStream.call (.new s) before = outputs InternalStream.call s before ∧
      (after BufferedStream.call (.new s) before).flush.stream = after InternalStream.call s before) ↔
      ∀ before a rest, calls = before ++ a :: rest → (after InternalStream.call s before).Settles a :=
  outputs_eq_iff (G := fun b d => b.flush.stream = d) (f := BufferedStream.call) (g := InternalStream.call)
    (C := InternalStream.Settles) (fun h => h.stream_flush) BufferedStream.shows_call BufferedStream.not_shows_call
    (BufferedStream.shows_new s) calls

open Machine in
/-- Writing nothing at position 10 of an empty stream. The buffered stream reports a size of 10 until it is flushed. -/
theorem empty_write_is_lost :
    let calls : List StreamCall := [.setPos 10, .write [], .getSize, .flush, .getSize]
    let s : InternalStream := ⟨[], 0⟩
    outputs BufferedStream.call (.new s) calls = [.done, .count 0, .count 10, .done, .count 0] ∧
      outputs InternalStream.call s calls = [.done, .count 0, .count 10, .done, .count 10] ∧
      (after BufferedStream.call (.new s) calls).flush.stream.data ≠ (after InternalStream.call s calls).data := by
  decide

end Afl.Io
