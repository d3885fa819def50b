import Afl.Io.Transform.GzipFraming

/-!
# Progress

A call of `transform` with input and memory takes input, or writes output, or throws: until the transform is behind its
stream, and no call does anything any more.
-/

namespace Afl.Io

variable {ζ : Type}

/-- The output of zlib is bounded: by what its input can expand to, and what a stream has not written yet. -/
structure Zlib.Expands (z : Zlib ζ) (factor : Nat) (pending : ζ → Nat) : Prop where
  inflateInit2 : ∀ stream bits, pending (z.inflateInit2 stream bits).2 = 0
  inflate : ∀ stream input room,
    pending (z.inflate stream input room).stream + (z.inflate stream input room).written.length ≤
      pending stream + factor * (z.inflate stream input room).consumed

namespace InflateTransform

variable (z : Zlib ζ)

/-! ### States -/

/-- The states that calls of `transform` lead to. -/
inductive Reachable (pers : Personality) : InflateTransform ζ → Prop
  | new : Reachable pers (new z pers)
  | transform {s} (h : Reachable pers s) (input buffer : Bytes) : Reachable pers (transform z s input buffer).2

def collects (s : InflateTransform ζ) : Nat :=
  match s.state with
  | .checkHeader => 10
  | .checkExtraDataLength => if s.gzHeaderFlags &&& flExtraData ≠ 0 then 2 else 1
  | .checkHeaderCRC => if s.gzHeaderFlags &&& flHeaderCRC ≠ 0 then 2 else 1
  | .checkingTrailer => if s.personality = .gzip then 8 else 1
  | _ => 1

/-- No state has all of its bytes, unless the header was refused; and only gzip has a header. -/
structure WellFormed (s : InflateTransform ζ) : Prop where
  size : s.size < s.collects ∨ s.state = .checkHeader ∧ validHeader s.buffer = false
  header : s.personality = .gzip ∨ weight s.state ≤ 3

/-- zlib reports the end of the stream, and has neither taken nor written anything. -/
def AnswersEnd (stream : ζ) (input : Bytes) (room : Nat) : Prop :=
  input.length ≤ 0xFFFFFFFF ∧ room ≤ 0xFFFFFFFF ∧ (z.inflate stream input room).result = Z_STREAM_END ∧
    (z.inflate stream input room).consumed = 0 ∧ (z.inflate stream input room).written = []

/-- The transform is behind its stream, or finds out with this input and this room in memory. -/
def Stalled (s : InflateTransform ζ) (input : Bytes) (room : Nat) : Prop :=
  match s.state with
  | .endReached => True
  | .checkingTrailer => s.personality ≠ .gzip
  | .decompressing => s.personality ≠ .gzip ∧ AnswersEnd z s.zStream input room
  | .finishedHeader =>
    s.personality ≠ .gzip ∧ (z.inflateInit2 s.zStream (windowBits s.personality)).1 = Z_OK ∧
      AnswersEnd z (z.inflateInit2 s.zStream (windowBits s.personality)).2 input room
  | _ => False

def Cursor.Stalled (c : Cursor ζ) : Prop := InflateTransform.Stalled z c.s c.input (c.memory.length - c.outIndex)

def Cursor.budget (factor : Nat) (pending : ζ → Nat) (c : Cursor ζ) : Nat :=
  factor * c.input.length + pending c.s.zStream + c.outIndex

/-- What a call keeps, round by round. -/
structure Keeps (c c' : Cursor ζ) : Prop where
  wellFormed : c'.s.WellFormed
  memory : c'.memory.length = c.memory.length
  input : c'.input.length ≤ c.input.length
  outIndex : c.outIndex ≤ c'.outIndex
  budget : ∀ {factor pending}, z.Expands factor pending → c.memory.length ≤ 0xFFFFFFFF →
    c'.budget factor pending ≤ c.budget factor pending

/-- What a round does, with input and memory. -/
inductive Does (c : Cursor ζ) : Loop.Round (Cursor ζ) (Except Exception Unit × Cursor ζ) → Prop
  | throws {e c'} (hkeeps : Keeps z c c') (hstalled : ¬c.Stalled z) : Does c (.leave (.error e, c'))
  | moves {c'} (hkeeps : Keeps z c c') (hleft : c'.left < c.left) (hstalled : ¬c.Stalled z) : Does c (.again c')
  | turns {c'} (hkeeps : Keeps z c c') (hinput : c'.input = c.input) (houtIndex : c'.outIndex = c.outIndex)
      (hstalled : c'.Stalled z ↔ c.Stalled z) : Does c (.again c')

variable {z} {c : Cursor ζ}

theorem Keeps.refl (h : c.s.WellFormed) : Keeps z c c := ⟨h, rfl, Nat.le_refl _, Nat.le_refl _, fun _ _ => Nat.le_refl _⟩

theorem Keeps.trans {c' c'' : Cursor ζ} (h : Keeps z c c') (h' : Keeps z c' c'') : Keeps z c c'' where
  wellFormed := h'.wellFormed
  memory := h'.memory.trans h.memory
  input := h'.input.trans h.input
  outIndex := h.outIndex.trans h'.outIndex
  budget hz hsmall := (h'.budget hz (h.memory ▸ hsmall)).trans (h.budget hz hsmall)

theorem Frame.keeps {c' : Cursor ζ} (h : Frame c c') (hwellFormed : c'.s.WellFormed)
    (hinput : c'.input.length ≤ c.input.length) : Keeps z c c' where
  wellFormed := hwellFormed
  memory := by rw [h.memory]
  input := hinput
  outIndex := h.outIndex.ge
  budget {factor pending} _ _ := by
    have hfactor := Nat.mul_le_mul_left factor hinput
    rw [Cursor.budget, Cursor.budget, h.zStream, h.outIndex]
    omega

theorem Frame.left_lt {c' : Cursor ζ} (h : Frame c c') (hinput : c'.input.length < c.input.length) :
    c'.left < c.left := by
  rw [Cursor.left, Cursor.left, h.memory, h.outIndex]
  omega

theorem Frame.moves {c' : Cursor ζ} (h : Frame c c') (hwellFormed : c'.s.WellFormed)
    (hinput : c'.input.length < c.input.length) (hstalled : ¬c.Stalled z) : Does z c (.again c') :=
  .moves (h.keeps hwellFormed hinput.le) (h.left_lt hinput) hstalled

theorem Frame.turns {c' : Cursor ζ} (h : Frame c c') (hwellFormed : c'.s.WellFormed) (hinput : c'.input = c.input)
    (hstalled : c'.Stalled z ↔ c.Stalled z) : Does z c (.again c') :=
  .turns (h.keeps hwellFormed (by rw [hinput])) hinput h.outIndex hstalled

/-! ### The header and the trailer -/

theorem length_drop_lt {input : Bytes} {size n : Nat} (hinput : input ≠ []) (hsize : size < n) :
    (input.drop (n - size)).length < input.length := by
  have hlength := List.length_pos_iff.mpr hinput
  rw [List.length_drop]
  omega

theorem validHeader_take {buffer : Bytes} {n : Nat} (h : 4 ≤ n) : validHeader (buffer.take n) = validHeader buffer := by
  have hget : ∀ i < 4, (buffer.take n).getD i 0 = buffer.getD i 0 := by
    intro i hi
    rw [List.getD_eq_getElem?_getD, List.getD_eq_getElem?_getD, List.getElem?_take_of_lt (by omega)]
  rw [validHeader, validHeader, hget 0 (by decide), hget 1 (by decide), hget 2 (by decide), hget 3 (by decide)]

theorem not_stalled_of_gzip (hgzip : c.s.personality = .gzip) (hstate : c.s.state ≠ .endReached) : ¬c.Stalled z := by
  rw [Cursor.Stalled, InflateTransform.Stalled]
  cases h : c.s.state <;> simp [h, hgzip] at hstate ⊢

theorem WellFormed.gzip (h : c.s.WellFormed) (hweight : 3 < weight c.s.state) :
    c.s.personality = .gzip ∧ ¬c.Stalled z := by
  have hgzip := h.header.resolve_right (Nat.not_le.mpr hweight)
  refine ⟨hgzip, not_stalled_of_gzip hgzip fun hend => ?_⟩
  rw [hend] at hweight
  exact absurd hweight (by decide)

theorem checkHeader_does (h : c.s.WellFormed) (hinput : c.input ≠ []) (hstate : c.s.state = .checkHeader) :
    Does z c (checkHeader c) := by
  obtain ⟨hgzip, hstalled⟩ := h.gzip (z := z) (by rw [hstate]; decide)
  have hframe : Frame c (c.fill 10) := ⟨rfl, rfl, rfl, rfl⟩
  have hle : (c.fill 10).input.length ≤ c.input.length := by
    rw [Cursor.fill, List.length_drop]
    omega
  simp only [checkHeader]
  split_ifs with hfull hvalid
  · -- the ten bytes were not there before
    have hsize : c.s.size < 10 := by
      rcases h.size with hless | ⟨-, hinvalid⟩
      · rw [collects, hstate] at hless
        exact hless
      · by_contra hmore
        have hnone : 10 - c.s.size = 0 := by omega
        rw [Cursor.fill, hnone, List.take_zero, List.append_nil, validHeader_take (by omega), hinvalid] at hvalid
        cases hvalid
    refine Frame.moves ⟨rfl, rfl, rfl, rfl⟩ ⟨.inl ?_, .inl hgzip⟩ (length_drop_lt hinput hsize) hstalled
    simp only [collects]
    split_ifs <;> decide
  · exact .throws (hframe.keeps ⟨.inr ⟨hstate, by simpa using hvalid⟩, .inl hgzip⟩ hle) hstalled
  · have hsize : (c.fill 10).s.size < 10 := Nat.not_le.mp hfull
    refine hframe.moves ⟨.inl ?_, .inl hgzip⟩ (length_drop_lt hinput (Nat.lt_of_le_of_lt ?_ hsize)) hstalled
    · rw [collects, show (c.fill 10).s.state = _ from hstate]
      exact hsize
    · exact Nat.le_add_right _ _

theorem checkExtraDataLength_does (h : c.s.WellFormed) (hinput : c.input ≠ [])
    (hstate : c.s.state = .checkExtraDataLength) : Does z c (.again (checkExtraDataLength c)) := by
  obtain ⟨hgzip, hstalled⟩ := h.gzip (z := z) (by rw [hstate]; decide)
  have hsize : c.s.size < if c.s.gzHeaderFlags &&& flExtraData ≠ 0 then 2 else 1 := by
    have hsize := h.size.resolve_right (by simp [hstate])
    rwa [collects, hstate] at hsize
  have hframe := frame_checkExtraDataLength c
  rw [checkExtraDataLength] at hframe ⊢
  by_cases hflag : c.s.gzHeaderFlags &&& flExtraData ≠ 0
  · rw [if_pos hflag] at hframe hsize ⊢
    by_cases hfull : (c.fill 2).s.size ≥ 2
    · simp only [if_pos hfull] at hframe ⊢
      exact hframe.moves ⟨.inl Nat.zero_lt_one, .inl hgzip⟩ (length_drop_lt hinput hsize) hstalled
    · simp only [if_neg hfull] at hframe ⊢
      refine hframe.moves ⟨.inl ?_, .inl hgzip⟩ (length_drop_lt hinput hsize) hstalled
      rw [collects, show (c.fill 2).s.state = _ from hstate]
      exact (Nat.not_le.mp hfull).trans_eq (if_pos hflag).symm
  · rw [if_neg hflag] at hframe hsize ⊢
    exact hframe.turns ⟨.inl hsize, .inl hgzip⟩ rfl
      (iff_of_false (not_stalled_of_gzip hgzip (by simp [Cursor.turn])) hstalled)

theorem checkExtraData_does (h : c.s.WellFormed) (hinput : c.input ≠ []) (hstate : c.s.state = .checkExtraData) :
    Does z c (.again (checkExtraData c)) := by
  obtain ⟨hgzip, hstalled⟩ := h.gzip (z := z) (by rw [hstate]; decide)
  have hsize : c.s.size < 1 := by
    have hsize := h.size.resolve_right (by simp [hstate])
    rwa [collects, hstate] at hsize
  have hframe := frame_checkExtraData c
  have hwellFormed : (checkExtraData c).s.WellFormed ∧ (checkExtraData c).input = c.input.drop c.s.gzExtraDataLength.toNat ∧
      (checkExtraData c).s.state ≠ .endReached := by
    simp only [checkExtraData]
    split_ifs
    · exact ⟨⟨.inl hsize, .inl hgzip⟩, rfl, by simp [Cursor.turn]⟩
    · refine ⟨⟨.inl ?_, .inl hgzip⟩, rfl, by simp [hstate]⟩
      simp only [collects, hstate]
      exact hsize
  obtain ⟨hwellFormed, hdrop, hnot⟩ := hwellFormed
  rcases Nat.eq_zero_or_pos c.s.gzExtraDataLength.toNat with hzero | hpos
  · rw [hzero, List.drop_zero] at hdrop
    exact hframe.turns hwellFormed hdrop
      (iff_of_false (not_stalled_of_gzip (hframe.personality.trans hgzip) hnot) hstalled)
  · refine hframe.moves hwellFormed ?_ hstalled
    rw [hdrop]
    exact length_drop_lt (n := c.s.gzExtraDataLength.toNat) hinput hpos

theorem checkString_does {flag : UInt8} {next : InflateState} (hgzip : c.s.personality = .gzip) (hinput : c.input ≠ [])
    (hstalled : ¬c.Stalled z) (hwellFormed : c.s.WellFormed) (hnext : (c.turn next).s.WellFormed)
    (hnot : next ≠ .endReached) : Does z c (.again (checkString flag next c)) := by
  have hframe := frame_checkString c flag next
  rw [checkString] at hframe ⊢
  by_cases hflag : c.s.gzHeaderFlags &&& flag ≠ 0
  · rw [if_pos hflag] at hframe ⊢
    have hleft := left_skipString hinput next
    rw [Cursor.left, Cursor.left, hframe.memory, hframe.outIndex] at hleft
    refine hframe.moves ?_ (by omega) hstalled
    rw [Cursor.skipString]
    split
    · exact hnext
    · exact hwellFormed
  · rw [if_neg hflag] at hframe ⊢
    exact hframe.turns hnext rfl (iff_of_false (not_stalled_of_gzip hgzip hnot) hstalled)

theorem checkBytes_does {present : Bool} {n : Nat} {next : InflateState} (hinput : c.input ≠ [])
    (hcollects : c.s.collects = if present then n else 1) (hsize : c.s.size < c.s.collects)
    (hheader : c.s.personality = .gzip ∨ weight c.s.state ≤ 3)
    (hnext : ({ c.s with size := 0, state := next } : InflateTransform ζ).WellFormed)
    (hmoves : present = true → ¬c.Stalled z)
    (hturns : present = false → ((c.turn next).Stalled z ↔ c.Stalled z)) :
    Does z c (.again (checkBytes present n next c)) := by
  have hframe := frame_checkBytes c present n next
  rw [hcollects] at hsize
  cases present with
  | false =>
    have hzero : c.s.size = 0 := Nat.lt_one_iff.mp hsize
    rw [← hzero] at hnext
    exact hframe.turns hnext rfl (hturns rfl)
  | true =>
    simp only [checkBytes, if_true] at hframe hsize ⊢
    by_cases hfull : (c.skip n).s.size ≥ n
    · rw [if_pos hfull] at hframe ⊢
      exact hframe.moves hnext (length_drop_lt hinput hsize) (hmoves rfl)
    · rw [if_neg hfull] at hframe ⊢
      refine hframe.moves ⟨.inl ?_, hheader⟩ (length_drop_lt hinput hsize) (hmoves rfl)
      exact (Nat.not_le.mp hfull).trans_eq hcollects.symm

theorem WellFormed.size_zero (h : c.s.WellFormed) (hcollects : c.s.collects = 1) (hstate : c.s.state ≠ .checkHeader) :
    c.s.size = 0 := by
  have hsize := h.size.resolve_right fun hheader => hstate hheader.1
  rw [hcollects] at hsize
  exact Nat.lt_one_iff.mp hsize

theorem checkFileName_does (h : c.s.WellFormed) (hinput : c.input ≠ []) (hstate : c.s.state = .checkFileName) :
    Does z c (.again (checkFileName c)) := by
  obtain ⟨hgzip, hstalled⟩ := h.gzip (z := z) (by rw [hstate]; decide)
  have hsize := h.size_zero (by rw [collects, hstate]) (by simp [hstate])
  exact checkString_does hgzip hinput hstalled h ⟨.inl (Nat.lt_one_iff.mpr hsize), .inl hgzip⟩ (by decide)

theorem checkComment_does (h : c.s.WellFormed) (hinput : c.input ≠ []) (hstate : c.s.state = .checkComment) :
    Does z c (.again (checkComment c)) := by
  obtain ⟨hgzip, hstalled⟩ := h.gzip (z := z) (by rw [hstate]; decide)
  have hsize := h.size_zero (by rw [collects, hstate]) (by simp [hstate])
  refine checkString_does hgzip hinput hstalled h ⟨.inl ?_, .inl hgzip⟩ (by decide)
  simp only [Cursor.turn, collects, hsize]
  split_ifs <;> decide

theorem checkHeaderCRC_does (h : c.s.WellFormed) (hinput : c.input ≠ []) (hstate : c.s.state = .checkHeaderCRC) :
    Does z c (.again (checkHeaderCRC c)) := by
  obtain ⟨hgzip, hstalled⟩ := h.gzip (z := z) (by rw [hstate]; decide)
  refine checkBytes_does hinput ?_ (h.size.resolve_right (by simp [hstate])) h.header
    ⟨.inl Nat.zero_lt_one, .inl hgzip⟩ (fun _ => hstalled)
    (fun _ => iff_of_false (not_stalled_of_gzip hgzip (by simp [Cursor.turn])) hstalled)
  rw [collects, hstate]
  simp only [decide_eq_true_eq]

theorem checkingTrailer_does (h : c.s.WellFormed) (hinput : c.input ≠ []) (hstate : c.s.state = .checkingTrailer) :
    Does z c (.again (checkingTrailer c)) := by
  have hstalled : c.Stalled z ↔ c.s.personality ≠ .gzip := by rw [Cursor.Stalled, InflateTransform.Stalled, hstate]
  refine checkBytes_does hinput ?_ (h.size.resolve_right (by simp [hstate])) h.header
    ⟨.inl Nat.zero_lt_one, .inr (Nat.zero_le _)⟩ (fun hgzip => ?_) (fun hother => iff_of_true trivial ?_)
  · rw [collects, hstate]
    simp only [decide_eq_true_eq]
  · rw [hstalled, not_not]
    exact of_decide_eq_true hgzip
  · rw [hstalled]
    exact of_decide_eq_false hother

/-! ### zlib -/

theorem finishedHeader_does (h : c.s.WellFormed) (hstate : c.s.state = .finishedHeader) :
    Does z c (finishedHeader z c) := by
  have hsize := h.size_zero (by rw [collects, hstate]) (by simp [hstate])
  let c' : Cursor ζ := { c with
    s := { c.s with
      zStream := (z.inflateInit2 c.s.zStream (windowBits c.s.personality)).2, state := .decompressing } }
  have hkeeps : Keeps z c c' := by
    refine ⟨⟨.inl (Nat.lt_one_iff.mpr hsize), .inr (Nat.le_succ 2)⟩, rfl, Nat.le_refl _, Nat.le_refl _, fun hz _ => ?_⟩
    rw [Cursor.budget, Cursor.budget, show c'.s.zStream = _ from rfl, hz.inflateInit2]
    exact Nat.add_le_add_right (Nat.add_le_add_left (Nat.zero_le _) _) _
  have hround : finishedHeader z c =
      if (z.inflateInit2 c.s.zStream (windowBits c.s.personality)).1 ≠ Z_OK then
        .leave (.error (reportError z c'.s.zStream (z.inflateInit2 c.s.zStream (windowBits c.s.personality)).1), c')
      else .again c' := rfl
  have hstalled : c.Stalled z ↔ c.s.personality ≠ .gzip ∧
      (z.inflateInit2 c.s.zStream (windowBits c.s.personality)).1 = Z_OK ∧
        AnswersEnd z c'.s.zStream c.input (c.memory.length - c.outIndex) := by
    rw [Cursor.Stalled, InflateTransform.Stalled, hstate]
  rw [hround]
  split_ifs with hresult
  · exact .throws hkeeps fun h => hresult (hstalled.mp h).2.1
  · rw [not_not] at hresult
    refine .turns hkeeps rfl rfl ?_
    rw [hstalled]
    exact ⟨fun h => ⟨h.1, hresult, h.2⟩, fun h => ⟨h.1, h.2.2⟩⟩

theorem Keeps.turn {c' : Cursor ζ} (h : Keeps z c c') {next : InflateState} (hnext : (c'.turn next).s.WellFormed) :
    Keeps z c (c'.turn next) :=
  ⟨hnext, h.memory, h.input, h.outIndex, h.budget⟩

theorem update_keeps (h : c.s.WellFormed) (hroom : c.outIndex < c.memory.length) :
    Keeps z c (c.update (inflated z c)) := by
  have hconsumed := inflated_consumed_le z c
  have hwritten := inflated_written_le z c
  simp only [convertSize] at hconsumed hwritten
  refine ⟨⟨h.size, h.header⟩, ?_, ?_, Nat.le_add_right _ _, fun {factor pending} hz hsmall => ?_⟩
  · simp only [Cursor.update, List.length_append, List.length_take, List.length_drop]
    omega
  · simp only [Cursor.update, List.length_drop]
    omega
  · have hexpands : pending (inflated z c).stream + (inflated z c).written.length ≤
        pending c.s.zStream + factor * (inflated z c).consumed := hz.inflate _ _ _
    have hfactor : factor * (c.update (inflated z c)).input.length + factor * (inflated z c).consumed ≤
        factor * c.input.length := by
      rw [← Nat.mul_add]
      refine Nat.mul_le_mul_left factor ?_
      simp only [Cursor.update, convertSize, List.length_drop]
      omega
    have houtIndex : (c.update (inflated z c)).outIndex = c.outIndex + (inflated z c).written.length := by
      simp only [Cursor.update, convertSize]
      omega
    rw [Cursor.budget, Cursor.budget, houtIndex, show (c.update (inflated z c)).s.zStream = (inflated z c).stream from rfl]
    omega

theorem inflated_of_fits (hinput : c.input.length ≤ 0xFFFFFFFF) (hroom : c.memory.length - c.outIndex ≤ 0xFFFFFFFF) :
    inflated z c = z.inflate c.s.zStream c.input (c.memory.length - c.outIndex) := by
  rw [inflated, convertSize, convertSize, Nat.min_eq_left hinput, Nat.min_eq_left hroom, List.take_length]

theorem AnswersEnd.inflated (h : AnswersEnd z c.s.zStream c.input (c.memory.length - c.outIndex)) :
    (inflated z c).result = Z_STREAM_END ∧ (c.update (inflated z c)).input = c.input ∧
      (c.update (inflated z c)).outIndex = c.outIndex := by
  obtain ⟨hinput, hroom, hresult, hconsumed, hwritten⟩ := h
  rw [inflated_of_fits hinput hroom]
  refine ⟨hresult, ?_, ?_⟩
  · simp only [Cursor.update, convertSize, hconsumed, Nat.min_eq_left hinput, Nat.sub_zero, Nat.sub_self,
      List.drop_zero]
  · simp only [Cursor.update, convertSize, hwritten, Nat.min_eq_left hroom, List.length_nil, Nat.sub_zero,
      Nat.sub_self, Nat.add_zero]

theorem left_update_lt (hinput : c.input ≠ []) (hroom : c.outIndex < c.memory.length)
    (hresult : (inflated z c).result = Z_STREAM_END)
    (h : ¬AnswersEnd z c.s.zStream c.input (c.memory.length - c.outIndex)) :
    (c.update (inflated z c)).left < c.left := by
  have hconsumed := inflated_consumed_le z c
  have hwritten := inflated_written_le z c
  have hleft := left_update hconsumed hwritten hroom
  have hlength := List.length_pos_iff.mpr hinput
  by_contra hnot
  have hsmall : c.input.length ≤ 0xFFFFFFFF ∧ c.memory.length - c.outIndex ≤ 0xFFFFFFFF := by
    simp only [convertSize] at hconsumed hwritten
    simp only [Cursor.left, Cursor.update, convertSize, List.length_drop, List.length_append, List.length_take] at hnot
    omega
  rw [inflated_of_fits hsmall.1 hsmall.2] at hleft hresult hnot
  refine h ⟨hsmall.1, hsmall.2, hresult, by omega, List.length_eq_zero_iff.mp (by omega)⟩

theorem decompressing_does (h : c.s.WellFormed) (hinput : c.input ≠ []) (hroom : c.outIndex < c.memory.length)
    (hstate : c.s.state = .decompressing) : Does z c (decompressing z c) := by
  have hsize := h.size_zero (by rw [collects, hstate]) (by simp [hstate])
  have hkeeps := update_keeps (z := z) h hroom
  have hstalled : c.Stalled z ↔
      c.s.personality ≠ .gzip ∧ AnswersEnd z c.s.zStream c.input (c.memory.length - c.outIndex) := by
    rw [Cursor.Stalled, InflateTransform.Stalled, hstate]
  have hmeasure : ∀ c', decompressing z c = .again c' → c'.measure < c.measure :=
    fun _ => measure_decompressing hstate hinput hroom
  simp only [decompressing] at hmeasure ⊢
  by_cases hresult : (inflated z c).result = Z_STREAM_END
  · rw [if_pos hresult]
    have hend : Keeps z c ((c.update (inflated z c)).turn .checkingTrailer) := by
      refine hkeeps.turn ⟨.inl ?_, .inr (Nat.le_succ_of_le (Nat.le_succ _))⟩
      change c.s.size < if c.s.personality = .gzip then 8 else 1
      rw [hsize]
      split_ifs <;> decide
    by_cases hanswers : AnswersEnd z c.s.zStream c.input (c.memory.length - c.outIndex)
    · exact .turns hend hanswers.inflated.2.1 hanswers.inflated.2.2 (by rw [hstalled, and_iff_left hanswers]; rfl)
    · exact .moves hend (left_update_lt hinput hroom hresult hanswers) fun h => hanswers (hstalled.mp h).2
  · have hnot : ¬c.Stalled z := fun h => hresult (hstalled.mp h).2.inflated.1
    have hmoves : (c.update (inflated z c)).measure < c.measure → Does z c (.again (c.update (inflated z c))) := by
      intro hless
      rw [Cursor.measure, Cursor.measure, show (c.update (inflated z c)).s.state = c.s.state from rfl] at hless
      exact .moves hkeeps (by omega) hnot
    rw [if_neg hresult] at hmeasure ⊢
    split_ifs at hmeasure ⊢ with hmore hok
    · exact hmoves (hmeasure _ rfl)
    · exact hmoves (hmeasure _ rfl)
    · exact .throws (hkeeps.turn ⟨.inl (Nat.lt_one_iff.mpr hsize), .inr (Nat.zero_le _)⟩) hnot

/-! ### Calls -/

/-- **A round**, with input and memory. -/
theorem advance_does (h : c.s.WellFormed) (hbusy : c.Busy) : Does z c (advance z c) := by
  rw [advance]
  cases hstate : c.s.state with
  | checkHeader => exact checkHeader_does h hbusy.input hstate
  | checkExtraDataLength => exact checkExtraDataLength_does h hbusy.input hstate
  | checkExtraData => exact checkExtraData_does h hbusy.input hstate
  | checkFileName => exact checkFileName_does h hbusy.input hstate
  | checkComment => exact checkComment_does h hbusy.input hstate
  | checkHeaderCRC => exact checkHeaderCRC_does h hbusy.input hstate
  | finishedHeader => exact finishedHeader_does h hstate
  | decompressing => exact decompressing_does h hbusy.input hbusy.room hstate
  | checkingTrailer => exact checkingTrailer_does h hbusy.input hstate
  | endReached => exact absurd hstate hbusy.state

/-- Where a call is: it has come further than its start, or has only turned to other states. -/
structure Since (z : Zlib ζ) (c₀ c : Cursor ζ) : Prop where
  keeps : Keeps z c₀ c
  moved : c.left < c₀.left ∧ ¬c₀.Stalled z ∨
    c.input = c₀.input ∧ c.outIndex = c₀.outIndex ∧ (c.Stalled z ↔ c₀.Stalled z)

/-- How a call with input and memory ends. -/
inductive Outcome (z : Zlib ζ) (c₀ : Cursor ζ) : Except Exception Unit × Cursor ζ → Prop
  | throws {e c'} (hstalled : ¬c₀.Stalled z) : Outcome z c₀ (.error e, c')
  | progress {c'} (hleft : c'.left < c₀.left) (hstalled : ¬c₀.Stalled z) : Outcome z c₀ (.ok (), c')
  | nothing {c'} (hinput : c'.input = c₀.input) (houtIndex : c'.outIndex = c₀.outIndex)
      (hend : c'.s.state = .endReached) (hstalled : c₀.Stalled z) : Outcome z c₀ (.ok (), c')

theorem Since.again {c₀ c' : Cursor ζ} (h : Since z c₀ c) (hdoes : Does z c (.again c')) : Since z c₀ c' := by
  cases hdoes with
  | moves hkeeps hleft hstalled =>
    refine ⟨h.keeps.trans hkeeps, .inl ?_⟩
    rcases h.moved with ⟨hless, hnot⟩ | ⟨hinput, houtIndex, hiff⟩
    · exact ⟨hleft.trans hless, hnot⟩
    · refine ⟨hleft.trans_eq ?_, fun h => hstalled (hiff.mpr h)⟩
      rw [Cursor.left, Cursor.left, hinput, houtIndex, h.keeps.memory]
  | turns hkeeps hinput houtIndex hstalled =>
    refine ⟨h.keeps.trans hkeeps, ?_⟩
    rcases h.moved with ⟨hless, hnot⟩ | ⟨hinput', houtIndex', hiff⟩
    · refine .inl ⟨?_, hnot⟩
      rw [Cursor.left, hinput, houtIndex, hkeeps.memory]
      exact hless
    · exact .inr ⟨hinput.trans hinput', houtIndex.trans houtIndex', hstalled.trans hiff⟩

theorem Since.throws {c₀ c' : Cursor ζ} {r : Except Exception Unit} (h : Since z c₀ c)
    (hdoes : Does z c (.leave (r, c'))) : Keeps z c₀ c' ∧ Outcome z c₀ (r, c') := by
  cases hdoes with
  | throws hkeeps hstalled =>
    refine ⟨h.keeps.trans hkeeps, .throws ?_⟩
    rcases h.moved with ⟨-, hnot⟩ | ⟨-, -, hiff⟩
    · exact hnot
    · exact fun h => hstalled (hiff.mpr h)

theorem Since.leave {c₀ : Cursor ζ} (h : Since z c₀ c) (hinput : c₀.input ≠ []) (hroom : c₀.outIndex < c₀.memory.length)
    (hbusy : ¬c.Busy) : Outcome z c₀ (.ok (), c) := by
  rcases h.moved with ⟨hless, hnot⟩ | ⟨hinput', houtIndex, hiff⟩
  · exact .progress hless hnot
  · have hend : c.s.state = .endReached := by
      by_contra hstate
      refine hbusy ⟨hstate, hinput'.trans_ne hinput, ?_⟩
      rwa [houtIndex, h.keeps.memory]
    refine .nothing hinput' houtIndex hend (hiff.mp ?_)
    rw [Cursor.Stalled, InflateTransform.Stalled, hend]
    trivial

/-- **A call**: what the loop keeps, and how it ends when there is input and memory. -/
theorem loop_outcome (c₀ : Cursor ζ) (h : c₀.s.WellFormed) :
    Keeps z c₀ (loop z c₀).2 ∧
      (c₀.input ≠ [] → c₀.outIndex < c₀.memory.length → Outcome z c₀ (loop z c₀)) := by
  refine (Loop.ends_complete measure_round c₀).of_invariant (I := Since z c₀)
    (Q := fun r => Keeps z c₀ r.2 ∧ (c₀.input ≠ [] → c₀.outIndex < c₀.memory.length → Outcome z c₀ r)) ?_ ?_
    ⟨.refl h, .inr ⟨rfl, rfl, Iff.rfl⟩⟩
  · intro c c' hsince hround
    by_cases hbusy : c.Busy
    · rw [hbusy.round_eq] at hround
      exact hsince.again (hround ▸ advance_does hsince.keeps.wellFormed hbusy)
    · rw [round_of_not_busy hbusy] at hround
      cases hround
  · rintro c ⟨r, c'⟩ hsince hround
    by_cases hbusy : c.Busy
    · rw [hbusy.round_eq] at hround
      obtain ⟨hkeeps, houtcome⟩ := hsince.throws (hround ▸ advance_does hsince.keeps.wellFormed hbusy)
      exact ⟨hkeeps, fun _ _ => houtcome⟩
    · rw [round_of_not_busy hbusy] at hround
      cases hround
      exact ⟨hsince.keeps, fun hinput hroom => hsince.leave hinput hroom hbusy⟩

variable {s : InflateTransform ζ} {input buffer : Bytes}

theorem wellFormed_new (pers : Personality) : (new z pers).WellFormed := by
  cases pers
  · exact ⟨.inl (by decide : 0 < 10), .inl rfl⟩
  · exact ⟨.inl Nat.zero_lt_one, .inr (Nat.le_refl _)⟩
  · exact ⟨.inl Nat.zero_lt_one, .inr (Nat.le_refl _)⟩

theorem Reachable.wellFormed {pers : Personality} (h : Reachable z pers s) : s.WellFormed := by
  induction h with
  | new => exact wellFormed_new pers
  | transform _ input buffer ih => exact (loop_outcome ⟨_, input, buffer, 0⟩ ih).1.wellFormed

/-- A call has taken input, or written output, unless it has thrown. -/
def Progresses (input : Bytes) (res : Transformed Exception) : Prop :=
  ∀ out, res.out = .ok out → res.input.length < input.length ∨ 0 < out.size

theorem transform_of_stalled (h : s.WellFormed) (hinput : input ≠ []) (hbuffer : buffer ≠ [])
    (hstalled : Stalled z s input buffer.length) :
    (transform z s input buffer).1.input = input ∧ (transform z s input buffer).1.out = .ok ⟨0, 0⟩ ∧
      (transform z s input buffer).2.state = .endReached := by
  have houtcome := (loop_outcome (z := z) ⟨s, input, buffer, 0⟩ h).2 hinput (List.length_pos_iff.mpr hbuffer)
  rw [transform_eq]
  rcases hloop : loop z ⟨s, input, buffer, 0⟩ with ⟨r, c⟩
  rw [hloop] at houtcome
  cases houtcome with
  | throws hnot => exact absurd hstalled hnot
  | progress hleft hnot => exact absurd hstalled hnot
  | nothing hinput houtIndex hend _ =>
    refine ⟨hinput, ?_, hend⟩
    rw [houtIndex, Nat.min_zero]
    rfl

theorem transform_of_not_stalled (h : s.WellFormed) (hinput : input ≠ []) (hbuffer : buffer ≠ [])
    (hstalled : ¬Stalled z s input buffer.length) : Progresses input (transform z s input buffer).1 := by
  have hcall := loop_outcome (z := z) ⟨s, input, buffer, 0⟩ h
  have houtcome := hcall.2 hinput (List.length_pos_iff.mpr hbuffer)
  rw [transform_eq]
  intro out hout
  rcases hloop : loop z ⟨s, input, buffer, 0⟩ with ⟨r, c⟩
  rw [hloop] at houtcome hout hcall
  cases houtcome with
  | throws _ => cases hout
  | progress hleft _ =>
    cases hout
    have hmemory := hcall.1.memory
    have hlength := List.length_pos_iff.mpr hbuffer
    simp only [Cursor.left] at hleft hmemory ⊢
    omega
  | nothing _ _ _ h => exact absurd h hstalled

/-- **Progress**, in one call: exactly as long as the transform is not behind its stream. -/
theorem progresses_iff (h : s.WellFormed) (hinput : input ≠ []) (hbuffer : buffer ≠ []) :
    Progresses input (transform z s input buffer).1 ↔ ¬Stalled z s input buffer.length := by
  constructor
  · intro hprogress hstalled
    obtain ⟨hsame, hout, -⟩ := transform_of_stalled h hinput hbuffer hstalled
    rcases hprogress _ hout with hless | hpos
    · rw [hsame] at hless
      exact absurd hless (Nat.lt_irrefl _)
    · exact absurd hpos (Nat.lt_irrefl _)
  · exact transform_of_not_stalled h hinput hbuffer

theorem length_transform (input buffer : Bytes) (h : s.WellFormed) :
    (transform z s input buffer).1.buffer.length = buffer.length ∧
      (transform z s input buffer).1.input.length ≤ input.length := by
  have hkeeps := (loop_outcome (z := z) ⟨s, input, buffer, 0⟩ h).1
  exact ⟨hkeeps.memory, hkeeps.input⟩

theorem transform_nothing (s : InflateTransform ζ) (buffer : Bytes) :
    transform z s [] buffer = (⟨[], buffer, .ok ⟨0, 0⟩⟩, s) := by
  have hleave : round z ⟨s, [], buffer, 0⟩ = .leave (.ok (), ⟨s, [], buffer, 0⟩) := by
    rw [round, if_pos (.inr (.inl rfl))]
  rw [transform, Loop.complete_of_run measure_round 1 (Loop.run_leave hleave)]
  change (_, s) = _
  rw [Nat.min_zero]
  rfl

theorem transform_budget (h : s.WellFormed) {factor : Nat} {pending : ζ → Nat} (hz : z.Expands factor pending)
    (hsmall : buffer.length ≤ 0xFFFFFFFF) {out : Range} (hout : (transform z s input buffer).1.out = .ok out) :
    factor * (transform z s input buffer).1.input.length + pending (transform z s input buffer).2.zStream + out.size ≤
      factor * input.length + pending s.zStream := by
  have hbudget := (loop_outcome (z := z) ⟨s, input, buffer, 0⟩ h).1.budget hz hsmall
  rw [transform_eq] at hout ⊢
  rcases hloop : loop z ⟨s, input, buffer, 0⟩ with ⟨r, c⟩
  rw [hloop] at hout hbudget
  cases r with
  | error e => cases hout
  | ok u =>
    cases hout
    simp only [Cursor.budget] at hbudget ⊢
    omega

/-- A call with input and memory, and the transform is behind its stream. -/
def Idles (z : Zlib ζ) (s : InflateTransform ζ) (input memory : Bytes) : Prop :=
  input ≠ [] ∧ memory ≠ [] ∧ Stalled z s input memory.length

end InflateTransform

end Afl.Io
