import Afl.Data.Value
import Afl.Io.Transform.Transform

/-!
# Inflating

`afl/io/inflatetransform.cpp`: zlib behind a header and before a trailer. The header can stop at any byte; what is
between header and trailer is handed to zlib, which is a parameter.
-/

namespace Afl.Io

/-! ### zlib -/

def Z_OK : Int := 0
def Z_STREAM_END : Int := 1
def Z_BUF_ERROR : Int := -5

/-- What a call of `inflate` does: its result, how many bytes it has taken from `next_in`, the bytes it has written to
`next_out`, and the stream afterwards. -/
structure Inflated (ζ : Type) where
  result : Int
  consumed : Nat
  written : Bytes
  stream : ζ

/-- zlib, with streams `ζ`. `inflate` gets the bytes that `next_in` and `avail_in` describe, and `avail_out`. -/
structure Zlib (ζ : Type) where
  fresh : ζ
  inflateInit2 : ζ → Int → Int × ζ
  inflate : ζ → Bytes → Nat → Inflated ζ
  zError : Int → Bytes
  msg : ζ → Option Bytes
  consumed_le : ∀ stream input room, (inflate stream input room).consumed ≤ input.length
  written_le : ∀ stream input room, (inflate stream input room).written.length ≤ room
  progress : ∀ {stream input room}, input ≠ [] → 0 < room →
    (inflate stream input room).result = Z_OK ∨ (inflate stream input room).result = Z_BUF_ERROR →
      0 < (inflate stream input room).consumed + (inflate stream input room).written.length

/-! ### The transform -/

inductive Personality
  | gzip
  | raw
  | zlib
  deriving DecidableEq

inductive InflateState
  | checkHeader
  | checkExtraDataLength
  | checkExtraData
  | checkFileName
  | checkComment
  | checkHeaderCRC
  | finishedHeader
  | decompressing
  | checkingTrailer
  | endReached
  deriving DecidableEq

def flASCII : UInt8 := 1
def flHeaderCRC : UInt8 := 2
def flExtraData : UInt8 := 4
def flFileName : UInt8 := 8
def flComment : UInt8 := 16
def flAll : UInt8 := flASCII + flHeaderCRC + flExtraData + flFileName + flComment

/-- `InflateTransform::Impl`. Of `m_buffer` there is what has been stored. -/
structure InflateTransform (ζ : Type) where
  personality : Personality
  state : InflateState
  buffer : Bytes
  size : Nat
  gzHeaderFlags : UInt8
  gzExtraDataLength : UInt16
  zStream : ζ

namespace InflateTransform

variable {ζ : Type} (z : Zlib ζ)

def new (pers : Personality) : InflateTransform ζ :=
  ⟨pers, if pers = .gzip then .checkHeader else .finishedHeader, [], 0, 0, 0, z.fresh⟩

/-- A size, as far as an `unsigned int` holds it. -/
def convertSize (sz : Nat) : Nat := min sz 0xFFFFFFFF

def reportError (zStream : ζ) (code : Int) : Exception :=
  .invalidData (lit "Invalid compressed data" ++ lit ": " ++ z.zError code ++
    (match z.msg zStream with
      | some msg => lit ", " ++ msg
      | none => []))

/-- A call of `transform` in progress: the rest of the input, the memory, and how much of it is used. -/
structure Cursor (ζ : Type) where
  s : InflateTransform ζ
  input : Bytes
  memory : Bytes
  outIndex : Nat

/-- The next part of the input goes to the buffer, until it has `n` bytes. -/
def Cursor.fill (c : Cursor ζ) (n : Nat) : Cursor ζ :=
  let eaten := c.input.take (n - c.s.size)
  { c with
    s := { c.s with buffer := c.s.buffer.take c.s.size ++ eaten, size := c.s.size + eaten.length }
    input := c.input.drop (n - c.s.size) }

/-- The next part of the input is counted, up to `n` bytes. -/
def Cursor.skip (c : Cursor ζ) (n : Nat) : Cursor ζ :=
  { c with
    s := { c.s with size := c.s.size + (c.input.take (n - c.s.size)).length }
    input := c.input.drop (n - c.s.size) }

def Cursor.skipString (c : Cursor ζ) (next : InflateState) : Cursor ζ :=
  match c.input.dropWhile (· ≠ 0) with
  | _ :: input => { c with s := { c.s with state := next }, input := input }
  | [] => { c with input := [] }

def Cursor.turn (c : Cursor ζ) (next : InflateState) : Cursor ζ := { c with s := { c.s with state := next } }

def validHeader (buffer : Bytes) : Bool :=
  buffer.getD 0 0 = 0x1F && buffer.getD 1 0 = 0x8B && buffer.getD 2 0 = 8 && buffer.getD 3 0 &&& ~~~flAll = 0

/-- What zlib does with the rest of the input and of the memory. -/
def inflated (c : Cursor ζ) : Inflated ζ :=
  z.inflate c.s.zStream (c.input.take (convertSize c.input.length)) (convertSize (c.memory.length - c.outIndex))

/-- The buffer pointers after a call of `inflate`. -/
def Cursor.update (c : Cursor ζ) (did : Inflated ζ) : Cursor ζ :=
  let availIn := convertSize c.input.length - did.consumed
  let remaining := c.memory.length - c.outIndex
  let availOut := convertSize remaining - did.written.length
  { c with
    s := { c.s with zStream := did.stream }
    input := c.input.drop (c.input.length - availIn)
    memory := c.memory.take c.outIndex ++ did.written ++ c.memory.drop (c.outIndex + did.written.length)
    outIndex := c.outIndex + (remaining - availOut) }

open Loop (Round)

def checkHeader (c : Cursor ζ) : Round (Cursor ζ) (Except Exception Unit × Cursor ζ) :=
  let c := c.fill 10
  if c.s.size ≥ 10 then
    if validHeader c.s.buffer then
      let flags := c.s.buffer.getD 3 0
      .again { c with s := { c.s with gzHeaderFlags := flags, state := .checkExtraDataLength, size := 0 } }
    else .leave (.error (.invalidData (lit "Invalid file header")), c)
  else .again c

def checkExtraDataLength (c : Cursor ζ) : Cursor ζ :=
  if c.s.gzHeaderFlags &&& flExtraData ≠ 0 then
    let c := c.fill 2
    if c.s.size ≥ 2 then
      let length := UInt16.ofNat (256 * (c.s.buffer.getD 1 0).toNat + (c.s.buffer.getD 0 0).toNat)
      { c with s := { c.s with gzExtraDataLength := length, state := .checkExtraData, size := 0 } }
    else c
  else c.turn .checkFileName

/-- `splitUpdate` leaves how many bytes are missing. -/
def checkExtraData (c : Cursor ζ) : Cursor ζ :=
  let eaten := c.input.take c.s.gzExtraDataLength.toNat
  let c := { c with
    s := { c.s with gzExtraDataLength := c.s.gzExtraDataLength - UInt16.ofNat eaten.length }
    input := c.input.drop c.s.gzExtraDataLength.toNat }
  if c.s.gzExtraDataLength = 0 then c.turn .checkFileName else c

def checkString (flag : UInt8) (next : InflateState) (c : Cursor ζ) : Cursor ζ :=
  if c.s.gzHeaderFlags &&& flag ≠ 0 then c.skipString next else c.turn next

def checkFileName (c : Cursor ζ) : Cursor ζ := checkString flFileName .checkComment c

def checkComment (c : Cursor ζ) : Cursor ζ := checkString flComment .checkHeaderCRC c

/-- Skip `n` bytes if they are there, then turn to another state. -/
def checkBytes (present : Bool) (n : Nat) (next : InflateState) (c : Cursor ζ) : Cursor ζ :=
  if present then
    let c := c.skip n
    if c.s.size ≥ n then { c with s := { c.s with size := 0, state := next } } else c
  else c.turn next

def checkHeaderCRC (c : Cursor ζ) : Cursor ζ :=
  checkBytes (c.s.gzHeaderFlags &&& flHeaderCRC ≠ 0) 2 .finishedHeader c

/-- The window that zlib is initialized for; it is negative for a deflate stream without a header. -/
def windowBits (pers : Personality) : Int := if pers = .zlib then 15 else -15

def finishedHeader (c : Cursor ζ) : Round (Cursor ζ) (Except Exception Unit × Cursor ζ) :=
  let (result, zStream) := z.inflateInit2 c.s.zStream (windowBits c.s.personality)
  let c := { c with s := { c.s with zStream := zStream, state := .decompressing } }
  if result ≠ Z_OK then .leave (.error (reportError z zStream result), c) else .again c

def decompressing (c : Cursor ζ) : Round (Cursor ζ) (Except Exception Unit × Cursor ζ) :=
  let did := inflated z c
  let availIn := convertSize c.input.length - did.consumed
  let c := c.update did
  if did.result = Z_STREAM_END then .again (c.turn .checkingTrailer)
  else if did.result = Z_BUF_ERROR ∨ availIn = 0 then .again c
  else if did.result = Z_OK then .again c
  else .leave (.error (reportError z c.s.zStream did.result), c.turn .endReached)

def checkingTrailer (c : Cursor ζ) : Cursor ζ := checkBytes (c.s.personality = .gzip) 8 .endReached c

/-- What the loop does, by states. -/
def advance (c : Cursor ζ) : Round (Cursor ζ) (Except Exception Unit × Cursor ζ) :=
  match c.s.state with
  | .checkHeader => checkHeader c
  | .checkExtraDataLength => .again (checkExtraDataLength c)
  | .checkExtraData => .again (checkExtraData c)
  | .checkFileName => .again (checkFileName c)
  | .checkComment => .again (checkComment c)
  | .checkHeaderCRC => .again (checkHeaderCRC c)
  | .finishedHeader => finishedHeader z c
  | .decompressing => decompressing z c
  | .checkingTrailer => .again (checkingTrailer c)
  | .endReached => .again c

/-- One round of the loop in `transform`. -/
def round (c : Cursor ζ) : Round (Cursor ζ) (Except Exception Unit × Cursor ζ) :=
  if c.s.state = .endReached ∨ c.input = [] ∨ c.memory.length ≤ c.outIndex then .leave (.ok (), c) else advance z c

/-! ### The loop ends -/

def weight : InflateState → Nat
  | .checkHeader => 9
  | .checkExtraDataLength => 8
  | .checkExtraData => 7
  | .checkFileName => 6
  | .checkComment => 5
  | .checkHeaderCRC => 4
  | .finishedHeader => 3
  | .decompressing => 2
  | .checkingTrailer => 1
  | .endReached => 0

def Cursor.left (c : Cursor ζ) : Nat := c.input.length + (c.memory.length - c.outIndex)

def Cursor.measure (c : Cursor ζ) : Nat := 10 * c.left + weight c.s.state

theorem weight_le (state : InflateState) : weight state ≤ 9 := by cases state <;> decide

variable {c c' : Cursor ζ}

theorem measure_lt_of_left (h : c'.left < c.left) : c'.measure < c.measure := by
  have hweight := weight_le c'.s.state
  rw [Cursor.measure, Cursor.measure]
  omega

theorem measure_lt_of_weight (h : c'.left ≤ c.left) (hweight : weight c'.s.state < weight c.s.state) :
    c'.measure < c.measure := by
  rw [Cursor.measure, Cursor.measure]
  omega

theorem left_fill_le (c : Cursor ζ) (n : Nat) : (c.fill n).left ≤ c.left := by
  simp only [Cursor.left, Cursor.fill, List.length_drop]
  omega

theorem left_skip_le (c : Cursor ζ) (n : Nat) : (c.skip n).left ≤ c.left := by
  simp only [Cursor.left, Cursor.skip, List.length_drop]
  omega

variable {c : Cursor ζ}

theorem left_fill_lt {n : Nat} (hinput : c.input ≠ []) (h : (c.fill n).s.size < n) :
    (c.fill n).left < c.left := by
  have hlength := List.length_pos_iff.mpr hinput
  simp only [Cursor.fill, List.length_take] at h
  simp only [Cursor.left, Cursor.fill, List.length_drop]
  omega

theorem left_skip_lt {n : Nat} (hinput : c.input ≠ []) (h : (c.skip n).s.size < n) :
    (c.skip n).left < c.left := by
  have hlength := List.length_pos_iff.mpr hinput
  simp only [Cursor.skip, List.length_take] at h
  simp only [Cursor.left, Cursor.skip, List.length_drop]
  omega

theorem left_skipString (hinput : c.input ≠ []) (next : InflateState) :
    (c.skipString next).left < c.left := by
  have hlength := List.length_pos_iff.mpr hinput
  have hle : (c.input.dropWhile (· ≠ 0)).length ≤ c.input.length := (List.dropWhile_sublist _).length_le
  rw [Cursor.skipString]
  split
  next x input heq =>
    rw [heq, List.length_cons] at hle
    simp only [Cursor.left]
    omega
  next =>
    simp only [Cursor.left, List.length_nil]
    omega

theorem left_update {did : Inflated ζ} (hconsumed : did.consumed ≤ convertSize c.input.length)
    (hwritten : did.written.length ≤ convertSize (c.memory.length - c.outIndex)) (hroom : c.outIndex < c.memory.length) :
    (c.update did).left + (did.consumed + did.written.length) ≤ c.left := by
  simp only [convertSize] at hconsumed hwritten
  simp only [Cursor.left, Cursor.update, convertSize, List.length_drop, List.length_append, List.length_take]
  omega

theorem inflated_consumed_le (c : Cursor ζ) : (inflated z c).consumed ≤ convertSize c.input.length := by
  have hle := z.consumed_le c.s.zStream (c.input.take (convertSize c.input.length))
    (convertSize (c.memory.length - c.outIndex))
  rw [List.length_take] at hle
  exact hle.trans (Nat.min_le_left _ _)

theorem inflated_written_le (c : Cursor ζ) :
    (inflated z c).written.length ≤ convertSize (c.memory.length - c.outIndex) :=
  z.written_le _ _ _

theorem inflated_progress (hinput : c.input ≠ []) (hroom : c.outIndex < c.memory.length)
    (h : (inflated z c).result = Z_OK ∨ (inflated z c).result = Z_BUF_ERROR) :
    0 < (inflated z c).consumed + (inflated z c).written.length := by
  have hlength := List.length_pos_iff.mpr hinput
  refine z.progress (fun hnil => ?_) ?_ h
  · have hzero := congrArg List.length hnil
    rw [List.length_take, convertSize, List.length_nil] at hzero
    omega
  · rw [convertSize]
    omega

variable {z}

theorem measure_turn {next : InflateState} (h : weight next < weight c.s.state) :
    (c.turn next).measure < c.measure :=
  measure_lt_of_weight (Nat.le_refl _) h

theorem measure_checkHeader (hstate : c.s.state = .checkHeader) (hinput : c.input ≠ [])
    (h : checkHeader c = .again c') : c'.measure < c.measure := by
  simp only [checkHeader] at h
  split_ifs at h with hfull hvalid <;> cases h
  · exact measure_lt_of_weight (left_fill_le c 10) (by simp [hstate, weight])
  · exact measure_lt_of_left (left_fill_lt hinput (Nat.not_le.mp hfull))

theorem measure_checkExtraDataLength (hstate : c.s.state = .checkExtraDataLength)
    (hinput : c.input ≠ []) : (checkExtraDataLength c).measure < c.measure := by
  simp only [checkExtraDataLength]
  split_ifs with hflag hfull
  · exact measure_lt_of_weight (left_fill_le c 2) (by simp [hstate, weight])
  · exact measure_lt_of_left (left_fill_lt hinput (Nat.not_le.mp hfull))
  · exact measure_turn (by simp [hstate, weight])

theorem measure_checkExtraData (hstate : c.s.state = .checkExtraData) (hinput : c.input ≠ []) :
    (checkExtraData c).measure < c.measure := by
  have hlength := List.length_pos_iff.mpr hinput
  simp only [checkExtraData]
  split_ifs with hzero
  · refine measure_lt_of_weight ?_ (by simp [hstate, weight, Cursor.turn])
    simp only [Cursor.left, Cursor.turn, List.length_drop]
    omega
  · have hpos : 0 < c.s.gzExtraDataLength.toNat := by
      rw [Nat.pos_iff_ne_zero]
      intro hnone
      refine hzero (UInt16.toNat_inj.mp ?_)
      rw [hnone, List.take_zero, List.length_nil]
      simpa using hnone
    refine measure_lt_of_left ?_
    simp only [Cursor.left, List.length_drop]
    omega

theorem measure_checkString {flag : UInt8} {next : InflateState} (hinput : c.input ≠ [])
    (hlater : weight next < weight c.s.state) : (checkString flag next c).measure < c.measure := by
  rw [checkString]
  split_ifs
  · exact measure_lt_of_left (left_skipString hinput next)
  · exact measure_turn hlater

theorem measure_checkBytes {present : Bool} {n : Nat} {next : InflateState} (hinput : c.input ≠ [])
    (hlater : weight next < weight c.s.state) : (checkBytes present n next c).measure < c.measure := by
  simp only [checkBytes]
  split_ifs with hpresent hfull
  · exact measure_lt_of_weight (left_skip_le c n) hlater
  · exact measure_lt_of_left (left_skip_lt hinput (Nat.not_le.mp hfull))
  · exact measure_turn hlater

theorem measure_finishedHeader (hstate : c.s.state = .finishedHeader)
    (h : finishedHeader z c = .again c') : c'.measure < c.measure := by
  simp only [finishedHeader] at h
  split_ifs at h
  cases h
  exact measure_lt_of_weight (Nat.le_refl _) (by simp [hstate, weight])

theorem measure_decompressing (hstate : c.s.state = .decompressing) (hinput : c.input ≠ [])
    (hroom : c.outIndex < c.memory.length) (h : decompressing z c = .again c') : c'.measure < c.measure := by
  have hleft := left_update (inflated_consumed_le z c) (inflated_written_le z c) hroom
  have hlength := List.length_pos_iff.mpr hinput
  simp only [decompressing] at h
  split_ifs at h with hend hmore hok <;> cases h
  · exact measure_lt_of_weight ((Nat.le_add_right _ _).trans hleft) (by simp [hstate, weight, Cursor.turn])
  · refine measure_lt_of_left ?_
    rcases hmore with hempty | hnone
    · have hprogress := inflated_progress z hinput hroom (.inr hempty)
      omega
    · -- zlib took all that it was given
      simp only [convertSize] at hnone
      simp only [Cursor.left, Cursor.update, convertSize, hnone, List.length_drop, List.length_append] at hleft ⊢
      omega
  · have hprogress := inflated_progress z hinput hroom (.inl hok)
    exact measure_lt_of_left (by omega)

theorem measure_round (h : round z c = .again c') : c'.measure < c.measure := by
  rw [round] at h
  split at h
  next => cases h
  next hleave =>
    simp only [not_or, Nat.not_le] at hleave
    obtain ⟨hnot, hinput, hroom⟩ := hleave
    rw [advance] at h
    split at h
    next hstate => exact measure_checkHeader hstate hinput h
    next hstate =>
      cases h
      exact measure_checkExtraDataLength hstate hinput
    next hstate =>
      cases h
      exact measure_checkExtraData hstate hinput
    next hstate =>
      cases h
      exact measure_checkString hinput (by simp [hstate, weight])
    next hstate =>
      cases h
      exact measure_checkString hinput (by simp [hstate, weight])
    next hstate =>
      cases h
      exact measure_checkBytes hinput (by simp [hstate, weight])
    next hstate => exact measure_finishedHeader hstate h
    next hstate => exact measure_decompressing hstate hinput hroom h
    next hstate =>
      cases h
      exact measure_checkBytes hinput (by simp [hstate, weight])
    next hstate => exact absurd hstate hnot

variable (z)

/-- `transform`: the loop, on both descriptors; `out` is trimmed to what is used. -/
def transform (s : InflateTransform ζ) (input buffer : Bytes) :
    Transformed Exception × InflateTransform ζ :=
  let (result, c) := Loop.complete (round z) Cursor.measure measure_round ⟨s, input, buffer, 0⟩
  (⟨c.input, c.memory, result.map fun _ => ⟨0, min c.memory.length c.outIndex⟩⟩, c.s)

def inflateTransform : Transform (InflateTransform ζ) Exception := ⟨transform z, id⟩

end InflateTransform

end Afl.Io
