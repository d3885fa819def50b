import Afl.Io.Transform.Inflate

/-!
# Gzip headers

A gzip member is a header with optional fields, a deflate stream, and a trailer of eight bytes. Every round of
`transform` reads the next part of the header, however the bytes are divided.
-/

namespace Afl.Io

/-! ### Gzip members -/

/-- The header of a gzip member. `info` is the time, a flag, and the operating system. -/
structure GzipHeader where
  ascii : Bool
  info : { info : Bytes // info.length = 6 }
  extraData : Option { data : Bytes // data.length < 65536 }
  fileName : Option { name : Bytes // 0 ∉ name }
  comment : Option { comment : Bytes // 0 ∉ comment }
  headerCRC : Option { crc : Bytes // crc.length = 2 }

namespace GzipHeader

open InflateTransform

def flag (present : Bool) (bit : UInt8) : UInt8 := if present then bit else 0

def flags (h : GzipHeader) : UInt8 :=
  flag h.ascii flASCII ||| flag h.headerCRC.isSome flHeaderCRC ||| flag h.extraData.isSome flExtraData |||
    flag h.fileName.isSome flFileName ||| flag h.comment.isSome flComment

def field {p : Bytes → Prop} (f : Bytes → Bytes) (x : Option { data : Bytes // p data }) : Bytes :=
  match x with
  | some data => f data.1
  | none => []

def lengthBytes (data : Bytes) : Bytes := [UInt8.ofNat (data.length % 256), UInt8.ofNat (data.length / 256)]

/-! The bytes of the header, field by field from its end. -/

def crcBytes (h : GzipHeader) : Bytes := field id h.headerCRC

def commentBytes (h : GzipHeader) : Bytes := field (· ++ [0]) h.comment

def fileNameBytes (h : GzipHeader) : Bytes := field (· ++ [0]) h.fileName

def extraBytes (h : GzipHeader) : Bytes := field (fun data => lengthBytes data ++ data) h.extraData

def fixedBytes (h : GzipHeader) : Bytes := [0x1F, 0x8B, 8, h.flags] ++ h.info

def bytes (h : GzipHeader) : Bytes :=
  h.fixedBytes ++ (h.extraBytes ++ (h.fileNameBytes ++ (h.commentBytes ++ h.crcBytes)))

end GzipHeader

/-- A gzip member with a deflate stream. -/
structure GzipMember where
  header : GzipHeader
  stream : Bytes
  trailer : { trailer : Bytes // trailer.length = 8 }

/-- What comes after the header, and after the whole member. -/
def GzipMember.body (m : GzipMember) (following : Bytes) : Bytes := m.stream ++ (m.trailer ++ following)

namespace GzipHeader

open InflateTransform

theorem flags_valid (h : GzipHeader) : h.flags &&& ~~~flAll = 0 := by
  rw [flags]
  cases h.ascii <;> cases h.headerCRC.isSome <;> cases h.extraData.isSome <;> cases h.fileName.isSome <;>
    cases h.comment.isSome <;> decide

theorem flags_present (h : GzipHeader) :
    decide (h.flags &&& flExtraData ≠ 0) = h.extraData.isSome ∧ decide (h.flags &&& flFileName ≠ 0) = h.fileName.isSome ∧
      decide (h.flags &&& flComment ≠ 0) = h.comment.isSome ∧ decide (h.flags &&& flHeaderCRC ≠ 0) = h.headerCRC.isSome := by
  rw [flags]
  cases h.ascii <;> cases h.headerCRC.isSome <;> cases h.extraData.isSome <;> cases h.fileName.isSome <;>
    cases h.comment.isSome <;> decide

theorem length_fixedBytes (h : GzipHeader) : h.fixedBytes.length = 10 := by
  rw [fixedBytes, List.length_append, h.info.2]
  rfl

theorem validHeader_fixedBytes (h : GzipHeader) : validHeader h.fixedBytes = true := by
  simp [validHeader, fixedBytes, h.flags_valid]

theorem toNat_lengthBytes {data : Bytes} (h : data.length < 65536) :
    (UInt16.ofNat (256 * ((lengthBytes data).getD 1 0).toNat + ((lengthBytes data).getD 0 0).toNat)).toNat =
      data.length := by
  simp only [lengthBytes, List.getD_cons_zero, List.getD_cons_succ, UInt8.toNat_ofNat', UInt16.toNat_ofNat']
  omega

end GzipHeader

namespace InflateTransform

open GzipHeader (lengthBytes)

variable {ζ : Type} {z : Zlib ζ}

/-! ### The rest of a field -/

theorem read_part {input later x rest : Bytes} (h : input ++ later = x ++ rest) :
    ∃ y, x = input.take x.length ++ y ∧ input.drop x.length ++ later = y ++ rest := by
  rcases List.append_eq_append_iff.mp h with ⟨y, rfl, rfl⟩ | ⟨input', rfl, rfl⟩
  · refine ⟨y, ?_, ?_⟩
    · rw [List.take_of_length_le (by simp)]
    · rw [List.drop_eq_nil_of_le (by simp), List.nil_append]
  · refine ⟨[], ?_, ?_⟩
    · rw [List.take_left, List.append_nil]
    · rw [List.drop_left, List.nil_append]

/-- A field of `n` bytes that goes to the buffer. -/
structure Filling (s : InflateTransform ζ) (n : Nat) (whole x : Bytes) : Prop where
  size : s.size < n
  filled : (s.buffer.take s.size).length = s.size
  whole : s.buffer.take s.size ++ x = whole

/-- A field of `n` bytes that is counted, if it is present. -/
def Counting (present : Bool) (n size : Nat) (x : Bytes) : Prop :=
  if present then size < n ∧ size + x.length = n else size = 0 ∧ x = []

/-- A string that is skipped, if it is present. -/
def Skipping (present : Bool) (x : Bytes) : Prop :=
  if present then ∃ name, 0 ∉ name ∧ x = name ++ [0] else x = []

variable {c : Cursor ζ}

theorem Filling.fill {n : Nat} {whole x later rest : Bytes} (h : Filling c.s n whole x)
    (hwhole : whole.length = n) (hinput : c.input ++ later = x ++ rest) :
    ∃ y, (c.fill n).input ++ later = y ++ rest ∧
      (Filling (c.fill n).s n whole y ∨ n ≤ (c.fill n).s.size ∧ (c.fill n).s.buffer = whole ∧ y = []) := by
  have hx : n - c.s.size = x.length := by
    have hlength := congrArg List.length h.whole
    rw [List.length_append, h.filled, hwhole] at hlength
    omega
  obtain ⟨y, hy, hrest⟩ := read_part hinput
  refine ⟨y, by rw [Cursor.fill, hx, hrest], ?_⟩
  have hbuffer : (c.fill n).s.buffer = c.s.buffer.take c.s.size ++ c.input.take x.length := by rw [Cursor.fill, hx]
  have hsize : (c.fill n).s.size = (c.fill n).s.buffer.length := by
    rw [hbuffer, List.length_append, h.filled, Cursor.fill, hx]
  have hall : (c.fill n).s.buffer ++ y = whole := by rw [hbuffer, List.append_assoc, ← hy, h.whole]
  have htake : (c.fill n).s.buffer.take (c.fill n).s.size = (c.fill n).s.buffer := by rw [hsize, List.take_length]
  rcases Nat.lt_or_ge (c.fill n).s.size n with hless | hfull
  · exact .inl ⟨hless, by rw [htake, hsize], by rw [htake, hall]⟩
  · have hnil : y = [] := by
      rw [← hall, List.length_append, ← hsize] at hwhole
      exact List.length_eq_zero_iff.mp (by omega)
    rw [hnil, List.append_nil] at hall
    exact .inr ⟨hfull, hall, hnil⟩

theorem Counting.checkBytes {present : Bool} {n : Nat} {x later rest : Bytes}
    (h : Counting present n c.s.size x) (hinput : c.input ++ later = x ++ rest) (next : InflateState) :
    ∃ y, y <:+ x ∧ (checkBytes present n next c).input ++ later = y ++ rest ∧
      ((∃ size, (checkBytes present n next c).s = { c.s with size := size } ∧ Counting present n size y) ∨
        (checkBytes present n next c).s = { c.s with size := 0, state := next } ∧ y = []) := by
  cases present with
  | false =>
    obtain ⟨hsize, rfl⟩ := h
    exact ⟨[], List.suffix_refl _, hinput, .inr ⟨by rw [← hsize]; rfl, rfl⟩⟩
  | true =>
    obtain ⟨hless, hlength⟩ : c.s.size < n ∧ c.s.size + x.length = n := h
    obtain ⟨y, hy, hrest⟩ := read_part hinput
    have hx : n - c.s.size = x.length := by omega
    have hskip : c.skip n = { c with
        s := { c.s with size := c.s.size + (c.input.take x.length).length }, input := c.input.drop x.length } := by
      rw [Cursor.skip, hx]
    have htotal := congrArg List.length hy
    rw [List.length_append] at htotal
    simp only [InflateTransform.checkBytes, hskip, if_true]
    refine ⟨y, ⟨_, hy.symm⟩, by split_ifs <;> exact hrest, ?_⟩
    split_ifs with hfull
    · exact .inr ⟨rfl, List.length_eq_zero_iff.mp (by omega)⟩
    · exact .inl ⟨_, rfl, by omega, by omega⟩

theorem skipString_spec {name later rest : Bytes} (hname : 0 ∉ name)
    (hinput : c.input ++ later = name ++ [0] ++ rest) (next : InflateState) :
    ∃ y, (c.skipString next).input ++ later = y ++ rest ∧
      ((c.skipString next).s = c.s ∧ (∃ name', 0 ∉ name' ∧ y = name' ++ [0]) ∨
        (c.skipString next).s = { c.s with state := next } ∧ y = []) := by
  have hskipped : ∀ b ∈ name, decide (b ≠ 0) = true := fun b hb => decide_eq_true fun hzero => hname (hzero ▸ hb)
  rw [List.append_assoc] at hinput
  rcases List.append_eq_append_iff.mp hinput with ⟨y, rfl, hlater⟩ | ⟨input', hsplit, hrest⟩
  · -- the input ends within the string
    have hdrop : c.input.dropWhile (· ≠ 0) = [] :=
      List.dropWhile_eq_nil_iff.mpr fun b hb => hskipped b (List.mem_append_left _ hb)
    rw [Cursor.skipString, hdrop]
    refine ⟨y ++ [0], by rw [List.nil_append, hlater, List.append_assoc], .inl ⟨rfl, y, ?_, rfl⟩⟩
    exact fun hmem => hname (List.mem_append_right _ hmem)
  · have hdrop : c.input.dropWhile (· ≠ 0) = input'.dropWhile (· ≠ 0) := by
      rw [hsplit, List.dropWhile_append_of_pos hskipped]
    rw [Cursor.skipString, hdrop]
    rcases input' with _ | ⟨b, input'⟩
    · exact ⟨[0], hrest.symm, .inl ⟨rfl, [], List.not_mem_nil, rfl⟩⟩
    · obtain ⟨rfl, rfl⟩ := List.cons.inj hrest
      exact ⟨[], rfl, .inr ⟨rfl, rfl⟩⟩

theorem Skipping.checkString {flag : UInt8} {x later rest : Bytes}
    (h : Skipping (c.s.gzHeaderFlags &&& flag ≠ 0) x) (hinput : c.input ++ later = x ++ rest) (next : InflateState) :
    ∃ y, (checkString flag next c).input ++ later = y ++ rest ∧
      ((checkString flag next c).s = c.s ∧ Skipping (c.s.gzHeaderFlags &&& flag ≠ 0) y ∨
        (checkString flag next c).s = { c.s with state := next } ∧ y = []) := by
  rw [InflateTransform.checkString]
  split_ifs with hflag
  · rw [Skipping, if_pos (decide_eq_true hflag)] at h
    obtain ⟨name, hname, rfl⟩ := h
    obtain ⟨y, hrest, ⟨hs, hy⟩ | hdone⟩ := skipString_spec hname hinput next
    · refine ⟨y, hrest, .inl ⟨hs, ?_⟩⟩
      rw [Skipping, if_pos (decide_eq_true hflag)]
      exact hy
    · exact ⟨y, hrest, .inr hdone⟩
  · rw [Skipping, if_neg (by simpa using hflag)] at h
    exact ⟨[], h ▸ hinput, .inr ⟨rfl, rfl⟩⟩

/-! ### The header -/

/-- A transform that reads a header, and the part of the header that is still to come, by states in their order. -/
inductive Reading (h : GzipHeader) (s : InflateTransform ζ) : Bytes → Prop
  | fixed {x} (hstate : s.state = .checkHeader) (hpart : Filling s 10 h.fixedBytes x) :
      Reading h s (x ++ (h.extraBytes ++ (h.fileNameBytes ++ (h.commentBytes ++ h.crcBytes))))
  | extraDataLength {x data} (hstate : s.state = .checkExtraDataLength) (hflags : s.gzHeaderFlags = h.flags)
      (hdata : h.extraData = some data) (hpart : Filling s 2 (lengthBytes data) x) :
      Reading h s (x ++ (data ++ (h.fileNameBytes ++ (h.commentBytes ++ h.crcBytes))))
  | noExtraData (hstate : s.state = .checkExtraDataLength) (hflags : s.gzHeaderFlags = h.flags)
      (hdata : h.extraData = none) (hsize : s.size = 0) :
      Reading h s (h.fileNameBytes ++ (h.commentBytes ++ h.crcBytes))
  | extraData {x} (hstate : s.state = .checkExtraData) (hflags : s.gzHeaderFlags = h.flags) (hsize : s.size = 0)
      (hlength : x.length = s.gzExtraDataLength.toNat) :
      Reading h s (x ++ (h.fileNameBytes ++ (h.commentBytes ++ h.crcBytes)))
  | fileName {x} (hstate : s.state = .checkFileName) (hflags : s.gzHeaderFlags = h.flags) (hsize : s.size = 0)
      (hpart : Skipping h.fileName.isSome x) : Reading h s (x ++ (h.commentBytes ++ h.crcBytes))
  | comment {x} (hstate : s.state = .checkComment) (hflags : s.gzHeaderFlags = h.flags) (hsize : s.size = 0)
      (hpart : Skipping h.comment.isSome x) : Reading h s (x ++ h.crcBytes)
  | headerCRC {x} (hstate : s.state = .checkHeaderCRC) (hflags : s.gzHeaderFlags = h.flags)
      (hpart : Counting h.headerCRC.isSome 2 s.size x) : Reading h s x
  | finished (hstate : s.state = .finishedHeader) (hsize : s.size = 0) : Reading h s []

namespace Reading

variable {h : GzipHeader} {s : InflateTransform ζ}

/-! A header field is expected as a whole when its state is entered. -/

theorem skipping_field (x : Option { name : Bytes // 0 ∉ name }) :
    Skipping x.isSome (GzipHeader.field (· ++ [0]) x) := by
  cases x with
  | none => rfl
  | some name => exact ⟨name, name.2, rfl⟩

theorem counting_field {n : Nat} (hn : 0 < n) (x : Option { data : Bytes // data.length = n }) :
    Counting x.isSome n 0 (GzipHeader.field id x) := by
  cases x with
  | none => exact ⟨rfl, rfl⟩
  | some data => exact ⟨hn, (Nat.zero_add _).trans data.2⟩

theorem filling_whole {n : Nat} (hn : 0 < n) (hsize : s.size = 0) (whole : Bytes) : Filling s n whole whole :=
  ⟨by rw [hsize]; exact hn, by rw [hsize]; rfl, by rw [hsize]; rfl⟩

theorem enter_fixed (hstate : s.state = .checkHeader) (hsize : s.size = 0) : Reading h s h.bytes :=
  .fixed hstate (filling_whole (by decide) hsize _)

theorem enter_extraDataLength (hstate : s.state = .checkExtraDataLength) (hflags : s.gzHeaderFlags = h.flags)
    (hsize : s.size = 0) :
    Reading h s (h.extraBytes ++ (h.fileNameBytes ++ (h.commentBytes ++ h.crcBytes))) := by
  rcases hdata : h.extraData with _ | data
  · rw [GzipHeader.extraBytes, hdata]
    exact .noExtraData hstate hflags hdata hsize
  · rw [GzipHeader.extraBytes, hdata, GzipHeader.field, List.append_assoc]
    exact .extraDataLength hstate hflags hdata (filling_whole (by decide) hsize _)

theorem enter_fileName (hstate : s.state = .checkFileName) (hflags : s.gzHeaderFlags = h.flags) (hsize : s.size = 0) :
    Reading h s (h.fileNameBytes ++ (h.commentBytes ++ h.crcBytes)) :=
  .fileName hstate hflags hsize (skipping_field h.fileName)

theorem enter_comment (hstate : s.state = .checkComment) (hflags : s.gzHeaderFlags = h.flags) (hsize : s.size = 0) :
    Reading h s (h.commentBytes ++ h.crcBytes) :=
  .comment hstate hflags hsize (skipping_field h.comment)

theorem enter_headerCRC (hstate : s.state = .checkHeaderCRC) (hflags : s.gzHeaderFlags = h.flags) (hsize : s.size = 0) :
    Reading h s h.crcBytes :=
  .headerCRC hstate hflags (by rw [hsize]; exact counting_field (by decide) h.headerCRC)

end Reading

/-- What a round that reads a header leaves alone. -/
structure Frame (c c' : Cursor ζ) : Prop where
  memory : c'.memory = c.memory
  outIndex : c'.outIndex = c.outIndex
  personality : c'.s.personality = c.s.personality
  zStream : c'.s.zStream = c.s.zStream

theorem frame_checkExtraDataLength (c : Cursor ζ) : Frame c (checkExtraDataLength c) := by
  simp only [checkExtraDataLength]
  split_ifs <;> exact ⟨rfl, rfl, rfl, rfl⟩

theorem frame_checkExtraData (c : Cursor ζ) : Frame c (checkExtraData c) := by
  simp only [checkExtraData]
  split_ifs <;> exact ⟨rfl, rfl, rfl, rfl⟩

theorem frame_checkString (c : Cursor ζ) (flag : UInt8) (next : InflateState) : Frame c (checkString flag next c) := by
  rw [checkString, Cursor.skipString]
  split_ifs
  · split <;> exact ⟨rfl, rfl, rfl, rfl⟩
  · exact ⟨rfl, rfl, rfl, rfl⟩

theorem frame_checkBytes (c : Cursor ζ) (present : Bool) (n : Nat) (next : InflateState) :
    Frame c (checkBytes present n next c) := by
  simp only [checkBytes]
  split_ifs <;> exact ⟨rfl, rfl, rfl, rfl⟩

/-- A cursor that the loop is not left with. -/
structure Cursor.Busy (c : Cursor ζ) : Prop where
  state : c.s.state ≠ .endReached
  input : c.input ≠ []
  room : c.outIndex < c.memory.length

theorem Cursor.Busy.round_eq (h : c.Busy) : round z c = advance z c := by
  rw [round, if_neg]
  rintro (hend | hempty | hfull)
  · exact h.state hend
  · exact h.input hempty
  · exact absurd h.room (Nat.not_lt.mpr hfull)

namespace Reading

variable {h : GzipHeader} {c : Cursor ζ} {todo later body : Bytes}

/-- What a round makes of a header. -/
def Proceeds (h : GzipHeader) (later body : Bytes) (c c' : Cursor ζ) : Prop :=
  Frame c c' ∧ ∃ todo, Reading h c'.s todo ∧ c'.input ++ later = todo ++ body

variable {x : Bytes}

theorem checkHeader_proceeds (hstate : c.s.state = .checkHeader) (hpart : Filling c.s 10 h.fixedBytes x)
    (hunread : c.input ++ later =
      x ++ (h.extraBytes ++ (h.fileNameBytes ++ (h.commentBytes ++ h.crcBytes))) ++ body) :
    ∃ c', checkHeader c = .again c' ∧ Proceeds h later body c c' := by
  rw [List.append_assoc] at hunread
  obtain ⟨y, hrest, hmore | ⟨hfull, hbuffer, rfl⟩⟩ := hpart.fill h.length_fixedBytes hunread
  · refine ⟨c.fill 10, ?_, ⟨rfl, rfl, rfl, rfl⟩, _, .fixed hstate hmore, hrest.trans (List.append_assoc _ _ _).symm⟩
    simp only [checkHeader]
    rw [if_neg (Nat.not_le.mpr hmore.size)]
  · have hround : checkHeader c = .again { c.fill 10 with
        s := { (c.fill 10).s with gzHeaderFlags := h.flags, state := .checkExtraDataLength, size := 0 } } := by
      simp only [checkHeader]
      rw [if_pos hfull, if_pos (by rw [hbuffer, h.validHeader_fixedBytes]), hbuffer]
      rfl
    exact ⟨_, hround, ⟨rfl, rfl, rfl, rfl⟩, _, enter_extraDataLength rfl rfl rfl, hrest⟩

theorem checkExtraDataLength_proceeds {data : { data : Bytes // data.length < 65536 }}
    (hstate : c.s.state = .checkExtraDataLength) (hflags : c.s.gzHeaderFlags = h.flags) (hdata : h.extraData = some data)
    (hpart : Filling c.s 2 (lengthBytes data) x)
    (hunread : c.input ++ later = x ++ (data ++ (h.fileNameBytes ++ (h.commentBytes ++ h.crcBytes))) ++ body) :
    Proceeds h later body c (checkExtraDataLength c) := by
  have hflag : c.s.gzHeaderFlags &&& flExtraData ≠ 0 := by
    rw [hflags]
    exact of_decide_eq_true (h.flags_present.1.trans (by rw [hdata]; rfl))
  rw [List.append_assoc] at hunread
  refine ⟨frame_checkExtraDataLength c, ?_⟩
  obtain ⟨y, hrest, hmore | ⟨hfull, hbuffer, rfl⟩⟩ := hpart.fill rfl hunread
  · have hround : checkExtraDataLength c = c.fill 2 := by
      simp only [checkExtraDataLength]
      rw [if_pos hflag, if_neg (Nat.not_le.mpr hmore.size)]
    rw [hround]
    exact ⟨_, .extraDataLength hstate hflags hdata hmore, hrest.trans (List.append_assoc _ _ _).symm⟩
  · have hround : checkExtraDataLength c = { c.fill 2 with
        s := { (c.fill 2).s with
          gzExtraDataLength := UInt16.ofNat
            (256 * ((lengthBytes data).getD 1 0).toNat + ((lengthBytes data).getD 0 0).toNat)
          state := .checkExtraData
          size := 0 } } := by
      simp only [checkExtraDataLength]
      rw [if_pos hflag, if_pos hfull, hbuffer]
    rw [hround]
    exact ⟨_, .extraData rfl hflags rfl (GzipHeader.toNat_lengthBytes data.2).symm, hrest⟩

theorem noExtraData_proceeds (hflags : c.s.gzHeaderFlags = h.flags) (hdata : h.extraData = none) (hsize : c.s.size = 0)
    (hunread : c.input ++ later = h.fileNameBytes ++ (h.commentBytes ++ h.crcBytes) ++ body) :
    Proceeds h later body c (checkExtraDataLength c) := by
  have hflag : ¬c.s.gzHeaderFlags &&& flExtraData ≠ 0 := by
    rw [hflags]
    exact of_decide_eq_false (h.flags_present.1.trans (by rw [hdata]; rfl))
  rw [checkExtraDataLength, if_neg hflag]
  exact ⟨⟨rfl, rfl, rfl, rfl⟩, _, enter_fileName rfl hflags hsize, hunread⟩

theorem checkExtraData_proceeds (hstate : c.s.state = .checkExtraData) (hflags : c.s.gzHeaderFlags = h.flags)
    (hsize : c.s.size = 0) (hlength : x.length = c.s.gzExtraDataLength.toNat)
    (hunread : c.input ++ later = x ++ (h.fileNameBytes ++ (h.commentBytes ++ h.crcBytes)) ++ body) :
    Proceeds h later body c (checkExtraData c) := by
  rw [List.append_assoc] at hunread
  refine ⟨frame_checkExtraData c, ?_⟩
  obtain ⟨y, hy, hrest⟩ := read_part hunread
  rw [hlength] at hy hrest
  -- `splitUpdate` leaves the length of what is still to come
  have hmissing : (c.s.gzExtraDataLength - UInt16.ofNat (c.input.take c.s.gzExtraDataLength.toNat).length).toNat =
      y.length := by
    have htotal := congrArg List.length hy
    have hlt := c.s.gzExtraDataLength.toNat_lt
    rw [List.length_append, hlength] at htotal
    rw [UInt16.toNat_sub, UInt16.toNat_ofNat']
    omega
  simp only [checkExtraData]
  split_ifs with hzero
  · have hnil : y = [] := by
      rw [hzero] at hmissing
      exact List.length_eq_zero_iff.mp hmissing.symm
    exact ⟨_, enter_fileName rfl hflags hsize, by rw [hnil] at hrest; exact hrest⟩
  · exact ⟨_, .extraData hstate hflags hsize hmissing.symm, hrest.trans (List.append_assoc _ _ _).symm⟩

theorem checkFileName_proceeds (hstate : c.s.state = .checkFileName) (hflags : c.s.gzHeaderFlags = h.flags)
    (hsize : c.s.size = 0) (hpart : Skipping h.fileName.isSome x)
    (hunread : c.input ++ later = x ++ (h.commentBytes ++ h.crcBytes) ++ body) :
    Proceeds h later body c (checkFileName c) := by
  rw [List.append_assoc] at hunread
  rw [← h.flags_present.2.1, ← hflags] at hpart
  refine ⟨frame_checkString c _ _, ?_⟩
  rw [checkFileName]
  obtain ⟨y, hrest, ⟨hs, hmore⟩ | ⟨hs, rfl⟩⟩ := hpart.checkString hunread .checkComment
  · rw [hflags, h.flags_present.2.1] at hmore
    rw [hs]
    exact ⟨_, .fileName hstate hflags hsize hmore, hrest.trans (List.append_assoc _ _ _).symm⟩
  · rw [hs]
    exact ⟨_, enter_comment rfl hflags hsize, hrest⟩

theorem checkComment_proceeds (hstate : c.s.state = .checkComment) (hflags : c.s.gzHeaderFlags = h.flags)
    (hsize : c.s.size = 0) (hpart : Skipping h.comment.isSome x)
    (hunread : c.input ++ later = x ++ h.crcBytes ++ body) : Proceeds h later body c (checkComment c) := by
  rw [List.append_assoc] at hunread
  rw [← h.flags_present.2.2.1, ← hflags] at hpart
  refine ⟨frame_checkString c _ _, ?_⟩
  rw [checkComment]
  obtain ⟨y, hrest, ⟨hs, hmore⟩ | ⟨hs, rfl⟩⟩ := hpart.checkString hunread .checkHeaderCRC
  · rw [hflags, h.flags_present.2.2.1] at hmore
    rw [hs]
    exact ⟨_, .comment hstate hflags hsize hmore, hrest.trans (List.append_assoc _ _ _).symm⟩
  · rw [hs]
    exact ⟨_, enter_headerCRC rfl hflags hsize, hrest⟩

theorem checkHeaderCRC_proceeds (hstate : c.s.state = .checkHeaderCRC) (hflags : c.s.gzHeaderFlags = h.flags)
    (hpart : Counting h.headerCRC.isSome 2 c.s.size x) (hunread : c.input ++ later = x ++ body) :
    Proceeds h later body c (checkHeaderCRC c) := by
  rw [← h.flags_present.2.2.2, ← hflags] at hpart
  refine ⟨frame_checkBytes c _ _ _, ?_⟩
  rw [checkHeaderCRC]
  obtain ⟨y, -, hrest, ⟨size, hs, hmore⟩ | ⟨hs, rfl⟩⟩ := hpart.checkBytes hunread .finishedHeader
  · rw [hflags, h.flags_present.2.2.2] at hmore
    rw [hs]
    exact ⟨_, .headerCRC hstate hflags hmore, hrest⟩
  · rw [hs]
    exact ⟨_, .finished rfl rfl, hrest⟩

/-- **A round in the header** reads the next part of it, or zlib is initialized. -/
theorem advance_proceeds (hreading : Reading h c.s todo) (hunread : c.input ++ later = todo ++ body) :
    (∃ c', advance z c = .again c' ∧ Proceeds h later body c c') ∨
      c.s.state = .finishedHeader ∧ c.s.size = 0 ∧ c.input ++ later = body := by
  rw [advance]
  cases hreading with
  | fixed hstate hpart =>
    rw [hstate]
    exact .inl (checkHeader_proceeds hstate hpart hunread)
  | extraDataLength hstate hflags hdata hpart =>
    rw [hstate]
    exact .inl ⟨_, rfl, checkExtraDataLength_proceeds hstate hflags hdata hpart hunread⟩
  | noExtraData hstate hflags hdata hsize =>
    rw [hstate]
    exact .inl ⟨_, rfl, noExtraData_proceeds hflags hdata hsize hunread⟩
  | extraData hstate hflags hsize hlength =>
    rw [hstate]
    exact .inl ⟨_, rfl, checkExtraData_proceeds hstate hflags hsize hlength hunread⟩
  | fileName hstate hflags hsize hpart =>
    rw [hstate]
    exact .inl ⟨_, rfl, checkFileName_proceeds hstate hflags hsize hpart hunread⟩
  | comment hstate hflags hsize hpart =>
    rw [hstate]
    exact .inl ⟨_, rfl, checkComment_proceeds hstate hflags hsize hpart hunread⟩
  | headerCRC hstate hflags hpart =>
    rw [hstate]
    exact .inl ⟨_, rfl, checkHeaderCRC_proceeds hstate hflags hpart hunread⟩
  | finished hstate hsize => exact .inr ⟨hstate, hsize, hunread⟩

end Reading

end InflateTransform

end Afl.Io
