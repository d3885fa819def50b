import Afl.Data.Value
import Afl.Io.Transform.Transform
import Afl.Lib.Lzss
import Afl.Lib.Machine

/-!
# Expanding SZDD files

`afl/io/msexpandtransform.cpp`: a decoder that can stop at any byte. It eats its way through both descriptors, so when
it returns `out` describes the memory it did not use.
-/

namespace Afl.Io

inductive MsExpandState
  | header
  | control
  | readData
  | readLength
  | writeLiteral
  | writeBackreference
  deriving DecidableEq

/-- The ring is `m_window` with `m_windowPos`; of `m_header` there is what has been filled. -/
structure MsExpandTransform where
  ring : Lzss.Ring (Fin 4096) UInt8
  state : MsExpandState
  header : Bytes
  control : UInt8
  mask : UInt8
  count : Nat
  pos : Fin 4096
  data : UInt8

namespace MsExpandTransform

/-- `HEADER`: the signature and the compression mode. -/
def HEADER : Bytes := lit "SZDD" ++ [0x88, 0xF0, 0x27, 0x33] ++ lit "A"

def headerSize : Nat := 14

def new : MsExpandTransform := ⟨⟨fun _ => 32, 4080⟩, .header, [], 0, 0, 0, 0, 0⟩

/-- Advance a window pointer. -/
def next (p : Fin 4096) : Fin 4096 := p + 1

def place (low high : UInt8) : Fin 4096 := Fin.ofNat 4096 (low.toNat ||| (high &&& 0xF0).toNat <<< 4)

def length (high : UInt8) : Nat := (high &&& 15).toNat + 3

/-- A call of `transform` in progress: the rest of the input, the bytes written, and what `out` still describes. -/
structure Cursor where
  s : MsExpandTransform
  input : Bytes
  written : Bytes
  space : Bytes

open Loop (Round) in
/-- One round of the loop in `transform`. -/
def round (c : Cursor) : Round Cursor (Except Exception Unit × Cursor) :=
  let s := c.s
  match s.state with
  | .header =>
    let eaten := c.input.take (headerSize - s.count)
    let c := { c with
      s := { s with header := s.header ++ eaten, count := s.count + eaten.length }
      input := c.input.drop (headerSize - s.count) }
    if c.s.count ≥ headerSize then
      if c.s.header.take HEADER.length ≠ HEADER then .leave (.error (.invalidData (lit "Invalid file header")), c)
      else .again { c with s := { c.s with state := .control } }
    else .leave (.ok (), c)
  | .control =>
    match c.input with
    | p :: input => .again { c with s := { s with control := p, mask := 1, state := .readData }, input := input }
    | [] => .leave (.ok (), c)
  | .readData =>
    if s.mask = 0 then .again { c with s := { s with state := .control } }
    else
      match c.input with
      | p :: input =>
        let state := if s.control &&& s.mask ≠ 0 then .writeLiteral else .readLength
        .again { c with s := { s with data := p, state := state, mask := s.mask <<< 1 }, input := input }
      | [] => .leave (.ok (), c)
  | .readLength =>
    match c.input with
    | p :: input =>
      let s := { s with count := length p, pos := place s.data p, state := .writeBackreference }
      .again { c with s := s, input := input }
    | [] => .leave (.ok (), c)
  | .writeLiteral =>
    match c.space with
    | _ :: space =>
      let s := { s with ring := s.ring.push next s.data, state := .readData }
      .again { c with s := s, written := c.written ++ [c.s.data], space := space }
    | [] => .leave (.ok (), c)
  | .writeBackreference =>
    let n := min s.count c.space.length
    let (out, ring) := s.ring.copy next n s.pos
    let s := { s with ring := ring, pos := next^[n] s.pos, count := s.count - n }
    let c := { c with s := s, written := c.written ++ out, space := c.space.drop n }
    if s.count = 0 then .again { c with s := { s with state := .readData } } else .leave (.ok (), c)

/-! ### The loop ends -/

/-- How many rounds a state may take without moving a descriptor. -/
def MsExpandState.weight : MsExpandState → Nat
  | .header => 3
  | .control => 0
  | .readData => 1
  | .readLength => 0
  | .writeLiteral => 0
  | .writeBackreference => 2

def Cursor.measure (c : Cursor) : Nat := 3 * c.input.length + 3 * c.space.length + MsExpandState.weight c.s.state

theorem measure_round {c c' : Cursor} (h : round c = .again c') : c'.measure < c.measure := by
  obtain ⟨⟨ring, state, header, control, mask, count, pos, data⟩, input, written, space⟩ := c
  cases state with
  | header =>
    simp only [round] at h
    split_ifs at h
    cases h
    simp only [Cursor.measure, MsExpandState.weight, List.length_drop]
    omega
  | control =>
    cases input with
    | nil => cases h
    | cons p input =>
      cases h
      simp only [Cursor.measure, MsExpandState.weight, List.length_cons]
      omega
  | readData =>
    simp only [round] at h
    cases input with
    | nil =>
      split_ifs at h
      cases h
      simp only [Cursor.measure, MsExpandState.weight]
      omega
    | cons p input =>
      split_ifs at h <;> cases h <;> simp only [Cursor.measure, MsExpandState.weight, List.length_cons] <;> omega
  | readLength =>
    cases input with
    | nil => cases h
    | cons p input =>
      cases h
      simp only [Cursor.measure, MsExpandState.weight, List.length_cons]
      omega
  | writeLiteral =>
    cases space with
    | nil => cases h
    | cons q space =>
      cases h
      simp only [Cursor.measure, MsExpandState.weight, List.length_cons]
      omega
  | writeBackreference =>
    simp only [round] at h
    split_ifs at h
    cases h
    simp only [Cursor.measure, MsExpandState.weight, List.length_drop]
    omega

/-- `transform`: the loop, on both descriptors. -/
def transform (s : MsExpandTransform) (input buffer : Bytes) : Transformed Exception × MsExpandTransform :=
  let (result, c) := Loop.complete round Cursor.measure measure_round ⟨s, input, [], buffer⟩
  (⟨c.input, c.written ++ c.space, result.map fun _ => ⟨c.written.length, c.space.length⟩⟩, c.s)

/-! ### What it writes -/

/-- The control bits that are not used yet, as far as a mask finds them in some shifts. -/
def bitsFrom : Nat → UInt8 → UInt8 → List Bool
  | 0, _, _ => []
  | n + 1, control, mask => if mask = 0 then [] else decide (control &&& mask ≠ 0) :: bitsFrom n control (mask <<< 1)

/-- A mask is shifted out after eight steps. -/
def bitsLeft (control mask : UInt8) : List Bool := bitsFrom 8 control mask

def format : Lzss.Format (Fin 4096) UInt8 := ⟨fun control => bitsLeft control 1, place, length⟩

def expand (file : Bytes) : Bytes := Lzss.decode next format new.ring [] (file.drop headerSize)

/-- What a decoder still writes, given the rest of the input. -/
def pending (s : MsExpandTransform) (input : Bytes) : Bytes :=
  match s.state with
  | .header => Lzss.decode next format s.ring [] (input.drop (headerSize - s.count))
  | .control => Lzss.decode next format s.ring [] input
  | .readData => Lzss.decode next format s.ring (bitsLeft s.control s.mask) input
  | .readLength => Lzss.decode next format s.ring (false :: bitsLeft s.control s.mask) (s.data :: input)
  | .writeLiteral => s.data :: Lzss.decode next format (s.ring.push next s.data) (bitsLeft s.control s.mask) input
  | .writeBackreference =>
    let (out, ring) := s.ring.copy next s.count s.pos
    out ++ Lzss.decode next format ring (bitsLeft s.control s.mask) input

theorem toNat_shift (mask : UInt8) : (mask <<< 1).toNat = mask.toNat * 2 % 256 := by
  rw [UInt8.toNat_shiftLeft, Nat.shiftLeft_eq]
  rfl

theorem bitsFrom_succ {n : Nat} {control mask : UInt8} (h : mask.toNat * 2 ^ n % 256 = 0) :
    bitsFrom (n + 1) control mask = bitsFrom n control mask := by
  induction n generalizing mask with
  | zero =>
    have hlt := mask.toNat_lt
    have hzero : mask = 0 := UInt8.toNat_inj.mp (by rw [UInt8.toNat_zero]; omega)
    rw [hzero]
    rfl
  | succ n ih =>
    have hshift : (mask <<< 1).toNat * 2 ^ n % 256 = 0 := by
      rw [toNat_shift, Nat.mod_mul_mod, Nat.mul_assoc, ← pow_succ']
      exact h
    conv_lhs => rw [bitsFrom, ih hshift]
    rw [bitsFrom]

theorem bitsLeft_cons {control mask : UInt8} (h : mask ≠ 0) :
    bitsLeft control mask = decide (control &&& mask ≠ 0) :: bitsLeft control (mask <<< 1) := by
  have hshift : (mask <<< 1).toNat * 2 ^ 7 % 256 = 0 := by
    rw [toNat_shift]
    omega
  rw [bitsLeft, bitsFrom, if_neg h, bitsLeft, bitsFrom_succ hshift]

/-- Bytes have moved from what is pending to what is written, whatever input comes later. -/
structure Moved (c c' : Cursor) (out : Bytes) : Prop where
  written : c'.written = c.written ++ out
  space : c'.space = c.space.drop out.length
  fits : out.length ≤ c.space.length
  owed : ∀ later, pending c.s (c.input ++ later) = out ++ pending c'.s (c'.input ++ later)

theorem Moved.still {c c' : Cursor} (hwritten : c'.written = c.written) (hspace : c'.space = c.space)
    (howed : ∀ later, pending c.s (c.input ++ later) = pending c'.s (c'.input ++ later)) : Moved c c' [] :=
  ⟨by rw [hwritten, List.append_nil], by rw [hspace]; rfl, Nat.zero_le _, howed⟩

theorem Moved.trans {c c' c'' : Cursor} {out out' : Bytes} (h : Moved c c' out) (h' : Moved c' c'' out') :
    Moved c c'' (out ++ out') where
  written := by rw [h'.written, h.written, List.append_assoc]
  space := by rw [h'.space, h.space, List.drop_drop, List.length_append]
  fits := by
    have hfits' := h'.fits
    rw [h.space, List.length_drop] at hfits'
    have hfits := h.fits
    rw [List.length_append]
    omega
  owed later := by rw [h.owed, h'.owed, List.append_assoc]

/-- A decoder that cannot go on: it has no memory left, or it has no input and nothing to write. -/
def Cursor.Blocked (c : Cursor) : Prop := c.space = [] ∨ c.input = [] ∧ pending c.s [] = []

def Proceeds (c : Cursor) : Loop.Round Cursor (Except Exception Unit × Cursor) → Prop
  | .again c' => ∃ out, Moved c c' out
  | .leave (.ok _, c') => (∃ out, Moved c c' out) ∧ c'.Blocked
  | .leave (.error _, _) => True

theorem proceeds_header (c : Cursor) (hstate : c.s.state = .header) : Proceeds c (round c) := by
  obtain ⟨⟨ring, state, header, control, mask, count, pos, data⟩, input, written, space⟩ := c
  cases hstate
  simp only [round]
  split_ifs with hfull hmagic
  · trivial
  · have hlong : headerSize - count ≤ input.length ∨ headerSize - count = 0 := by
      rw [List.length_take] at hfull
      omega
    refine ⟨[], .still rfl rfl fun later => ?_⟩
    have hdrop : (input ++ later).drop (headerSize - count) = input.drop (headerSize - count) ++ later := by
      rcases hlong with hlong | hzero
      · exact List.drop_append_of_le_length hlong
      · rw [hzero]
        rfl
    simp only [pending, hdrop]
  · rw [List.length_take] at hfull
    have hshort : input.length ≤ headerSize - count := by omega
    have hcount : min (headerSize - count) input.length = input.length := Nat.min_eq_right hshort
    have hempty : input.drop (headerSize - count) = [] := List.drop_eq_nil_of_le hshort
    refine ⟨⟨[], .still rfl rfl fun later => ?_⟩, .inr ⟨hempty, ?_⟩⟩
    · have hdrop : (input ++ later).drop (headerSize - count) = later.drop (headerSize - (count + input.length)) := by
        rw [List.drop_append, hempty, List.nil_append, Nat.sub_sub]
      simp only [pending, List.length_take, hcount, hdrop, hempty, List.nil_append]
    · simp only [pending, List.drop_nil, Lzss.decode]

theorem proceeds_readData (c : Cursor) (hstate : c.s.state = .readData) : Proceeds c (round c) := by
  obtain ⟨⟨ring, state, header, control, mask, count, pos, data⟩, input, written, space⟩ := c
  cases hstate
  simp only [round]
  by_cases hmask : mask = 0
  · rw [if_pos hmask, hmask]
    exact ⟨[], .still rfl rfl fun _ => rfl⟩
  · rw [if_neg hmask]
    cases input with
    | nil => exact ⟨⟨[], .still rfl rfl fun _ => rfl⟩, .inr ⟨rfl, by simp only [pending, Lzss.decode]⟩⟩
    | cons p input =>
      refine ⟨[], .still rfl rfl fun later => ?_⟩
      by_cases hliteral : control &&& mask ≠ 0
      · simp only [pending, bitsLeft_cons hmask, decide_eq_true hliteral, if_pos hliteral, List.cons_append,
          Lzss.decode]
      · simp only [pending, bitsLeft_cons hmask, decide_eq_false hliteral, if_neg hliteral, List.cons_append]

theorem proceeds_writeBackreference (c : Cursor) (hstate : c.s.state = .writeBackreference) :
    Proceeds c (round c) := by
  obtain ⟨⟨ring, state, header, control, mask, count, pos, data⟩, input, written, space⟩ := c
  cases hstate
  have hlength : (ring.copy next (min count space.length) pos).1.length = min count space.length := ring.length_copy next _ _
  have hfits : (ring.copy next (min count space.length) pos).1.length ≤ space.length := by omega
  have hspace : space.drop (min count space.length) = space.drop (ring.copy next (min count space.length) pos).1.length := by
    rw [hlength]
  -- the bytes copied now, and those left for later
  have hsplit := ring.copy_add next (min count space.length) (count - min count space.length) pos
  rw [Nat.add_sub_cancel' (Nat.min_le_left _ _)] at hsplit
  simp only [round]
  split_ifs with hcount
  · refine ⟨_, rfl, hspace, hfits, fun later => ?_⟩
    simp only [hcount] at hsplit
    simp only [pending, hsplit, Lzss.Ring.copy, List.append_nil]
  · refine ⟨⟨_, rfl, hspace, hfits, fun later => ?_⟩, .inl (List.drop_eq_nil_of_le (by omega))⟩
    simp only [pending, hsplit, List.append_assoc]

theorem proceeds_round (c : Cursor) : Proceeds c (round c) := by
  cases hstate : c.s.state with
  | header => exact proceeds_header c hstate
  | readData => exact proceeds_readData c hstate
  | writeBackreference => exact proceeds_writeBackreference c hstate
  | control =>
    obtain ⟨⟨ring, state, header, control, mask, count, pos, data⟩, input, written, space⟩ := c
    cases hstate
    cases input with
    | nil => exact ⟨⟨[], .still rfl rfl fun _ => rfl⟩, .inr ⟨rfl, by simp only [pending, Lzss.decode]⟩⟩
    | cons p input =>
      exact ⟨[], .still rfl rfl fun _ => rfl⟩
  | readLength =>
    obtain ⟨⟨ring, state, header, control, mask, count, pos, data⟩, input, written, space⟩ := c
    cases hstate
    cases input with
    | nil => exact ⟨⟨[], .still rfl rfl fun _ => rfl⟩, .inr ⟨rfl, by simp only [pending, Lzss.decode]⟩⟩
    | cons p input =>
      exact ⟨[], .still rfl rfl fun _ => rfl⟩
  | writeLiteral =>
    obtain ⟨⟨ring, state, header, control, mask, count, pos, data⟩, input, written, space⟩ := c
    cases hstate
    cases space with
    | nil => exact ⟨⟨[], .still rfl rfl fun _ => rfl⟩, .inl rfl⟩
    | cons q space => exact ⟨[data], rfl, rfl, Nat.le_add_left 1 space.length, fun _ => rfl⟩

theorem moved_of_ends {c c' : Cursor} (hends : Loop.Ends round c (.ok (), c')) :
    ∃ out, Moved c c' out ∧ c'.Blocked := by
  refine Loop.Ends.of_invariant (I := fun c₁ => ∃ out, Moved c c₁ out)
    (Q := fun r => r.1 = .ok () → ∃ out, Moved c r.2 out ∧ r.2.Blocked) ?_ ?_ ⟨[], .still rfl rfl fun _ => rfl⟩ hends rfl
  · intro c₁ c₂ hc hround
    obtain ⟨out, hmoved⟩ := hc
    have hproceeds := proceeds_round c₁
    rw [hround] at hproceeds
    obtain ⟨out', hmoved'⟩ := hproceeds
    exact ⟨_, hmoved.trans hmoved'⟩
  · rintro c₁ ⟨result, c₂⟩ hc hround hok
    cases hok
    obtain ⟨out, hmoved⟩ := hc
    have hproceeds := proceeds_round c₁
    rw [hround] at hproceeds
    obtain ⟨⟨out', hmoved'⟩, hblocked⟩ := hproceeds
    exact ⟨_, hmoved.trans hmoved', hblocked⟩

/-- The bytes that a call produces: what is pending, as far as it fits. -/
def produced (s : MsExpandTransform) (input buffer : Bytes) : Bytes := (pending s input).take buffer.length

/-- **What a call does to the memory and to `out`.** It puts the bytes it produces in front of the memory, and leaves
`out` describing the rest. -/
theorem transform_spec {s : MsExpandTransform} {input buffer : Bytes} {out : Range}
    (h : (transform s input buffer).1.out = .ok out) :
    (transform s input buffer).1.buffer =
        produced s input buffer ++ buffer.drop (produced s input buffer).length ∧
      out = ⟨(produced s input buffer).length, buffer.length - (produced s input buffer).length⟩ ∧
      ∀ later, pending s (input ++ later) = produced s input buffer ++
        pending (transform s input buffer).2 ((transform s input buffer).1.input ++ later) := by
  have hends := Loop.ends_complete measure_round (⟨s, input, [], buffer⟩ : Cursor)
  rw [transform] at h ⊢
  rcases hresult : Loop.complete round Cursor.measure measure_round ⟨s, input, [], buffer⟩ with ⟨_ | _, c⟩
  · rw [hresult] at h
    cases h
  · rw [hresult] at h hends
    cases h
    obtain ⟨out, hmoved, hblocked⟩ := moved_of_ends hends
    have hwritten : c.written = out := hmoved.written
    have hspace : c.space = buffer.drop out.length := hmoved.space
    have hfits : out.length ≤ buffer.length := hmoved.fits
    have howed : ∀ later, pending s (input ++ later) = out ++ pending c.s (c.input ++ later) := hmoved.owed
    have hproduced : produced s input buffer = out := by
      have hall := howed []
      rw [List.append_nil, List.append_nil] at hall
      rw [produced, hall]
      rcases hblocked with hfull | ⟨hempty, hnothing⟩
      · rw [hspace, List.drop_eq_nil_iff] at hfull
        rw [Nat.le_antisymm hfull hfits, List.take_left]
      · rw [hempty, hnothing, List.append_nil, List.take_of_length_le hfits]
    simp only [hproduced, hwritten, hspace, List.length_drop]
    exact ⟨trivial, trivial, howed⟩

end MsExpandTransform

/-- `MsExpandTransform` as a `Transform`; there is nothing to flush. -/
def msExpandTransform : Transform MsExpandTransform Exception := ⟨MsExpandTransform.transform, id⟩


open MsExpandTransform TransformReaderStream

/-- The descriptor describes the first `n` bytes of the buffer. -/
def Range.Covers (r : Range) (n : Nat) : Prop := ∀ i, r.first ≤ i ∧ i < r.first + r.size ↔ i < n

theorem round_new (pieces : List Bytes) (numBytesRead : UInt64) (flushed : Bool) (memory : Bytes) :
    TransformReaderStream.round msExpandTransform ⟨0, memory, ⟨pieces, .new, [], numBytesRead, flushed⟩⟩ =
      .leave (.ok memory.length,
        ⟨memory.length, memory, ⟨pieces, .new, [], numBytesRead + UInt64.ofNat memory.length, flushed⟩⟩) := by
  have hcall : MsExpandTransform.transform .new [] memory = (⟨[], memory, .ok ⟨0, memory.length⟩⟩, .new) := by
    rw [MsExpandTransform.transform, Loop.complete_of_run measure_round 1 rfl]
    rfl
  simp only [TransformReaderStream.round, msExpandTransform, List.drop_zero, hcall, List.take_zero, List.nil_append,
    Nat.zero_add, ge_iff_le, Nat.le_refl, if_true]

theorem reads_new {s : TransformReaderStream MsExpandTransform} {memory : Bytes}
    {r : Except Exception Nat × Reading MsExpandTransform} (htransform : s.transform = MsExpandTransform.new)
    (hinput : s.input = []) (hread : s.Reads msExpandTransform memory r) :
    r.1 = .ok memory.length ∧ r.2.stream.transform = MsExpandTransform.new ∧ r.2.stream.input = [] := by
  obtain ⟨pieces, transform, input, numBytesRead, flushed⟩ := s
  cases htransform
  cases hinput
  rw [hread.eq_of_leave (round_new pieces numBytesRead flushed memory)]
  exact ⟨rfl, rfl, rfl⟩

theorem delivers_new {s : TransformReaderStream MsExpandTransform} {size : Nat} {data : Bytes}
    (htransform : s.transform = MsExpandTransform.new) (hinput : s.input = [])
    (h : s.Delivers msExpandTransform size data) : size = 0 ∧ data = [] := by
  induction h with
  | done hsize hread =>
    have hdid := (reads_new htransform hinput hread).1
    rw [hsize] at hdid
    cases hdid
    exact ⟨rfl, rfl⟩
  | more hsize hread hdid hrest ih =>
    obtain ⟨hall, hnext⟩ := reads_new htransform hinput hread
    rw [hsize] at hall
    cases hall
    exact absurd (ih hnext.1 hnext.2).1 hdid

/-- **`out` describes what a call produced only if there was no room for anything**, in a decoder after any calls; and
a reader over a decoder delivers the expanded file only if that is empty, to reads of no bytes. -/
theorem msExpand_contract_iff (calls : List (Bytes × Bytes)) (input buffer : Bytes) (out : Range) (pieces : List Bytes)
    (size : Nat) :
    let s := Machine.after (fun s call => transform s call.1 call.2) MsExpandTransform.new calls
    (s.transform input buffer).1.out = .ok out →
    (out.Covers (s.produced input buffer).length ↔ buffer = []) ∧
      ((TransformReaderStream.new pieces MsExpandTransform.new).Delivers msExpandTransform size
        (expand pieces.flatten) ↔ size = 0 ∧ expand pieces.flatten = []) := by
  intro s hout
  refine ⟨?_, fun h => delivers_new rfl rfl h, ?_⟩
  · obtain ⟨-, rfl, -⟩ := transform_spec hout
    have hfits : (s.produced input buffer).length ≤ buffer.length := by
      rw [produced, List.length_take]
      exact Nat.min_le_left _ _
    rw [← List.length_eq_zero_iff]
    constructor
    · intro hcovers
      by_contra hroom
      rcases Nat.eq_zero_or_pos (s.produced input buffer).length with hnothing | hsome
      · have hfirst := hcovers 0
        simp only [hnothing] at hfirst
        omega
      · have hfirst := (hcovers 0).mpr hsome
        simp only at hfirst
        omega
    · intro hempty i
      simp only [hempty]
      omega
  · rintro ⟨rfl, hempty⟩
    rw [hempty]
    exact .done rfl (.leave (round_new pieces 0 false []))

def literalFile : Bytes := HEADER ++ lit "x" ++ [1, 0, 0, 0] ++ [1] ++ lit "A"

theorem msExpand_contract_iff_no_room :
    ((MsExpandTransform.new.transform literalFile []).1.out = .ok ⟨0, 0⟩) ∧
      Range.Covers ⟨0, 0⟩ (MsExpandTransform.new.produced literalFile []).length := by
  have hout : (MsExpandTransform.new.transform literalFile []).1.out = .ok ⟨0, 0⟩ := by
    rw [MsExpandTransform.transform, Loop.complete_of_run measure_round 4 rfl]
    rfl
  exact ⟨hout, (msExpand_contract_iff [] literalFile [] ⟨0, 0⟩ [] 0 hout).1.mpr rfl⟩

/-- Expanded into two bytes, `A` is put into the first one, and `out` describes the second one. A reader of that file
never gets to its end. -/
theorem msExpand_describes_rest :
    (MsExpandTransform.new.transform literalFile [0, 0]).1.buffer = lit "A" ++ [0] ∧
      (MsExpandTransform.new.transform literalFile [0, 0]).1.out = .ok ⟨1, 1⟩ ∧
      MsExpandTransform.new.produced literalFile [0, 0] = lit "A" ∧ ¬Range.Covers ⟨1, 1⟩ 1 ∧
      ¬(TransformReaderStream.new [literalFile] MsExpandTransform.new).Delivers msExpandTransform 2 (lit "A") := by
  have hcall : MsExpandTransform.new.transform literalFile [0, 0] =
      (⟨[], lit "A" ++ [0], .ok ⟨1, 1⟩⟩, (MsExpandTransform.new.transform literalFile [0, 0]).2) := by
    rw [MsExpandTransform.transform, Loop.complete_of_run measure_round 6 rfl]
    rfl
  refine ⟨congrArg (·.1.buffer) hcall, congrArg (·.1.out) hcall, rfl, ?_, ?_⟩
  · intro hcovers
    exact absurd ((hcovers 0).mpr (by decide)).1 (by decide)
  · intro hdelivers
    exact absurd (delivers_new rfl rfl hdelivers).1 (by decide)

end Afl.Io
