import Afl.Io.Transform.Drivers
import Afl.Io.Transform.InflateDelivery

/-!
# Reading what was compressed

`TransformReaderStream::read` and `ZipDeflatedMember::read` over an `InflateTransform`: reads of any sizes return the
data of a complete stream, unless a call of `transform` leaves data in zlib.
-/

namespace Afl.Io

def TransformReaderStream.loop {σ ε : Type} (T : Transform σ ε) :
    ReadLoop (TransformReaderStream σ) (TransformReaderStream.Reading σ) UInt8 ε where
  start s memory := ⟨0, memory, s⟩
  round := TransformReaderStream.round T
  memory := TransformReaderStream.Reading.memory
  did := TransformReaderStream.Reading.did
  stream := TransformReaderStream.Reading.stream
  memory_start _ _ := rfl
  did_start _ _ := rfl
  stream_start _ _ := rfl

def ZipDeflatedMember.loop {σ ε : Type} (T : Transform σ ε) :
    ReadLoop (ZipDeflatedMember σ) (ZipDeflatedMember.Reading σ) UInt8 ε where
  start m memory := ⟨0, memory, m⟩
  round := ZipDeflatedMember.round T
  memory := ZipDeflatedMember.Reading.memory
  did := ZipDeflatedMember.Reading.did
  stream := ZipDeflatedMember.Reading.member
  memory_start _ _ := rfl
  did_start _ _ := rfl
  stream_start _ _ := rfl

namespace InflateTransform

variable {ζ : Type} {z : Zlib ζ} {R : ζ → Bytes → Bytes → Prop} {k : Compressed} {all data data' later : Bytes}

theorem Delivers.filled {s : InflateTransform ζ} {input memory : Bytes} {did n : Nat} (hdid : did ≤ memory.length)
    (h : Delivers z R k all s input later (memory.drop did) data n data') :
    (memory.take did ++ (InflateTransform.transform z s input (memory.drop did)).1.buffer).length = memory.length ∧
      did + n ≤ memory.length ∧
      (memory.take did ++ (InflateTransform.transform z s input (memory.drop did)).1.buffer).take (did + n) ++ data' =
        memory.take did ++ data ∧
      ((InflateTransform.transform z s input (memory.drop did)).1.input = [] ∨ did + n = memory.length) := by
  have hlength := h.length
  have hle := h.le
  have htake : (memory.take did).length = did := by rw [List.length_take, Nat.min_eq_left hdid]
  rw [List.length_drop] at hlength hle
  refine ⟨?_, by omega, ?_, h.uses.imp_right fun hfull => ?_⟩
  · rw [List.length_append, htake, hlength]
    omega
  · rw [List.take_append, htake, Nat.add_sub_cancel_left, List.append_assoc, h.data,
      List.take_of_length_le (htake.trans_le (Nat.le_add_right _ _))]
  · rw [List.length_drop] at hfull
    omega

/-! ### Reading through the transform -/

/-- A reader with the data that is to come. -/
structure ReaderAt (z : Zlib ζ) (R : ζ → Bytes → Bytes → Prop) (k : Compressed) (all : Bytes)
    (s : TransformReaderStream (InflateTransform ζ)) (data : Bytes) : Prop where
  within : Within z R k all s.transform (s.input ++ s.pieces.flatten) data
  calm : ¬Held s.transform (s.input ++ s.pieces.flatten)
  pieces : ∀ piece ∈ s.pieces, piece ≠ [] ∧ piece.length ≤ 2048
  input : s.input.length ≤ 2048
  flushed : s.flushed = true → s.pieces = []

def flushesLeft (r : TransformReaderStream.Reading (InflateTransform ζ)) : Nat :=
  r.stream.pieces.length + if r.stream.flushed then 0 else 1

/-- A call of `transform` that leaves data in zlib, in a read. -/
def ReaderWithholds (z : Zlib ζ) (r : TransformReaderStream.Reading (InflateTransform ζ)) : Prop :=
  Withholds z r.stream.transform r.stream.input r.stream.pieces.flatten (r.memory.length - r.did)

theorem ReaderAt.refill {s : TransformReaderStream (InflateTransform ζ)} (h : ReaderAt z R k all s data)
    (hinput : s.input = []) (hflushed : s.flushed = false) :
    ReaderAt z R k all (s.refill (inflateTransform z)) data ∧
      ∀ memory did, flushesLeft ⟨did, memory, s.refill (inflateTransform z)⟩ < flushesLeft ⟨did, memory, s⟩ := by
  obtain ⟨pieces, t, input, numBytesRead, flushed⟩ := s
  obtain ⟨hwithin, hcalm, hpieces, -, -⟩ := h
  simp only at hinput hflushed hwithin hcalm hpieces
  subst hinput hflushed
  cases pieces with
  | nil => exact ⟨⟨hwithin, hcalm, hpieces, Nat.zero_le _, fun _ => rfl⟩, fun memory did => Nat.zero_lt_one⟩
  | cons piece pieces =>
    obtain ⟨hpiece, hsmall⟩ := hpieces piece List.mem_cons_self
    rw [TransformReaderStream.refill, List.headD_cons, if_neg hpiece]
    refine ⟨⟨hwithin, hcalm, fun piece' hmem => hpieces piece' (List.mem_cons_of_mem piece hmem), hsmall, ?_⟩, ?_⟩
    · exact fun hflushed => by cases hflushed
    · exact fun memory did => Nat.lt_succ_self _

/-- **A round of `TransformReaderStream::read`.** -/
theorem reader_round (hz : z.Inflates R k all) {r : TransformReaderStream.Reading (InflateTransform ζ)}
    (h : ReaderAt z R k all r.stream data) (hdid : r.did ≤ r.memory.length) (hsmall : r.memory.length ≤ 0xFFFFFFFF)
    (hcalm : ¬ReaderWithholds z r) :
    (TransformReaderStream.loop (inflateTransform z)).FillsNext (ReaderAt z R k all) flushesLeft r data := by
  have hroom : (r.memory.drop r.did).length = r.memory.length - r.did := List.length_drop
  obtain ⟨n, data', hcall⟩ := h.within.transform hz (h.input.trans (by decide))
    (hroom.trans_le ((Nat.sub_le _ _).trans hsmall))
  obtain ⟨hlength, hle, hdata, huses⟩ := hcall.filled hdid
  have hheld : ¬Held (transform z r.stream.transform r.stream.input (r.memory.drop r.did)).2
      ((transform z r.stream.transform r.stream.input (r.memory.drop r.did)).1.input ++ r.stream.pieces.flatten) := by
    rw [hcall.held, hroom]
    exact not_or.mpr ⟨h.calm, hcalm⟩
  have hout := hcall.out
  have hwithin := hcall.within
  have hinput := (length_transform (z := z) r.stream.input (r.memory.drop r.did) h.within.wellFormed).2
  rcases htransform : transform z r.stream.transform r.stream.input (r.memory.drop r.did) with ⟨⟨input, buffer, out⟩, t⟩
  rw [htransform] at hlength hdata huses hheld hout hwithin hinput
  simp only at hlength hdata huses hheld hout hwithin hinput
  subst hout
  obtain ⟨s, hs⟩ : ∃ s : TransformReaderStream (InflateTransform ζ), s = { r.stream with
      transform := t, input := input, numBytesRead := r.stream.numBytesRead + UInt64.ofNat n } := ⟨_, rfl⟩
  have hat : ReaderAt z R k all s data' := by
    rw [hs]
    exact ⟨hwithin, hheld, h.pieces, hinput.trans h.input, h.flushed⟩
  have hround : TransformReaderStream.round (inflateTransform z) r =
      (if r.did + n ≥ (r.memory.take r.did ++ buffer).length then
          .leave (.ok (r.did + n), ⟨r.did + n, r.memory.take r.did ++ buffer, s⟩)
        else if s.input = [] then
          if s.flushed then .leave (.ok (r.did + n), ⟨r.did + n, r.memory.take r.did ++ buffer, s⟩)
          else .again ⟨r.did + n, r.memory.take r.did ++ buffer, s.refill (inflateTransform z)⟩
        else .again ⟨r.did + n, r.memory.take r.did ++ buffer, s⟩) := by
    simp only [TransformReaderStream.round, inflateTransform, htransform, hs]
  have hfills (s' : TransformReaderStream (InflateTransform ζ)) (hat' : ReaderAt z R k all s' data') :
      (TransformReaderStream.loop (inflateTransform z)).Fills (ReaderAt z R k all) r data
        ⟨r.did + n, r.memory.take r.did ++ buffer, s'⟩ data' :=
    ⟨hlength, hle.trans_eq hlength.symm, hdata, hat'⟩
  split_ifs at hround with hfull hempty hflushed
  · exact ⟨_, data', hfills s hat, .inr ⟨hround, .inl (Nat.le_antisymm (hle.trans_eq hlength.symm) hfull)⟩⟩
  · -- the end of the file
    refine ⟨_, data', hfills s hat, .inr ⟨hround, .inr ?_⟩⟩
    refine hat.within.stage.eq_nil_of_not_held hz ?_ hat.calm
    rw [hempty, hat.flushed hflushed]
    rfl
  · obtain ⟨hrefill, hless⟩ := hat.refill hempty (Bool.eq_false_iff.mpr hflushed)
    refine ⟨_, data', hfills _ hrefill, .inl ⟨hround, (hless _ _).trans_le ?_⟩⟩
    rw [hs]
    exact Nat.le_refl _
  · refine absurd ((huses.resolve_left ?_).trans hlength.symm).ge hfull
    rwa [hs] at hempty

/-! ### Reading a member of a zip file -/

/-- A member with the data that is to come. -/
structure MemberAt (z : Zlib ζ) (R : ζ → Bytes → Bytes → Prop) (k : Compressed) (all : Bytes)
    (m : ZipDeflatedMember (InflateTransform ζ)) (data : Bytes) : Prop where
  within : Within z R k all m.transform (m.bufferDescriptor ++ m.pieces.flatten) data
  calm : ¬Held m.transform (m.bufferDescriptor ++ m.pieces.flatten)
  pieces : ∀ piece ∈ m.pieces, piece ≠ [] ∧ piece.length ≤ 4096
  buffer : m.bufferDescriptor.length ≤ 4096

/-- How much there is to fill: the buffer, and the memory. -/
def fillsLeft (r : ZipDeflatedMember.Reading (InflateTransform ζ)) : Nat :=
  2 * r.member.pieces.length + (if r.member.bufferDescriptor = [] then 0 else 1) +
    if r.did < r.memory.length then 1 else 0

/-- A call of `transform` that leaves data in zlib, in a read. -/
def MemberWithholds (z : Zlib ζ) (r : ZipDeflatedMember.Reading (InflateTransform ζ)) : Prop :=
  Withholds z r.member.transform r.member.refill.bufferDescriptor r.member.refill.pieces.flatten
    (r.memory.length - r.did)

theorem MemberAt.refill {m : ZipDeflatedMember (InflateTransform ζ)} (h : MemberAt z R k all m data) :
    MemberAt z R k all m.refill data ∧ (m.refill.bufferDescriptor = [] → m.refill.pieces = []) ∧
      (m.refill.bufferDescriptor ≠ [] →
        2 * m.refill.pieces.length + 1 ≤ 2 * m.pieces.length + if m.bufferDescriptor = [] then 0 else 1) := by
  obtain ⟨pieces, t, buffer, bytesRead⟩ := m
  obtain ⟨hwithin, hcalm, hpieces, hbuffer⟩ := h
  simp only at hwithin hcalm hpieces hbuffer
  rw [ZipDeflatedMember.refill]
  split_ifs with hempty
  · simp only at hempty
    subst hempty
    cases pieces with
    | nil => exact ⟨⟨hwithin, hcalm, hpieces, hbuffer⟩, fun _ => rfl, fun hsome => absurd rfl hsome⟩
    | cons piece pieces =>
      obtain ⟨hpiece, hsmall⟩ := hpieces piece List.mem_cons_self
      refine ⟨⟨hwithin, hcalm, fun piece' hmem => hpieces piece' (List.mem_cons_of_mem piece hmem), hsmall⟩,
        fun hnil => absurd hnil hpiece, fun _ => ?_⟩
      simp only [List.tail_cons, List.length_cons]
      omega
  · exact ⟨⟨hwithin, hcalm, hpieces, hbuffer⟩, fun hnil => absurd hnil hempty, fun _ => Nat.le_refl _⟩

/-- **A round of `ZipDeflatedMember::read`.** -/
theorem member_round (hz : z.Inflates R k all) {r : ZipDeflatedMember.Reading (InflateTransform ζ)}
    (h : MemberAt z R k all r.member data) (hdid : r.did ≤ r.memory.length) (hsmall : r.memory.length ≤ 0xFFFFFFFF)
    (hcalm : ¬MemberWithholds z r) :
    (ZipDeflatedMember.loop (inflateTransform z)).FillsNext (MemberAt z R k all) fillsLeft r data := by
  by_cases hfull : r.memory.length ≤ r.did
  · have hround : ZipDeflatedMember.round (inflateTransform z) r = .leave (.ok r.did, r) := if_pos hfull
    exact ⟨r, data, ⟨rfl, hdid, rfl, h⟩, .inr ⟨hround, .inl (Nat.le_antisymm hdid hfull)⟩⟩
  obtain ⟨hrefill, hlast, hpieces⟩ := h.refill
  by_cases hempty : r.member.refill.bufferDescriptor = []
  · -- the end of the file
    have hround : ZipDeflatedMember.round (inflateTransform z) r =
        .leave (.ok r.did, { r with member := r.member.refill }) := by
      rw [ZipDeflatedMember.round, if_neg hfull]
      exact if_pos hempty
    refine ⟨{ r with member := r.member.refill }, data, ⟨rfl, hdid, rfl, hrefill⟩, .inr ⟨hround, .inr ?_⟩⟩
    refine hrefill.within.stage.eq_nil_of_not_held hz ?_ hrefill.calm
    rw [hempty, hlast hempty]
    rfl
  have hroom : (r.memory.drop r.did).length = r.memory.length - r.did := List.length_drop
  obtain ⟨n, data', hcall⟩ := hrefill.within.transform hz (hrefill.buffer.trans (by decide))
    (hroom.trans_le ((Nat.sub_le _ _).trans hsmall))
  obtain ⟨hlength, hle, hdata, huses⟩ := hcall.filled hdid
  have hkept := (refill_member r.member).1
  have hheld := hcall.held
  rw [hroom, hkept] at hheld
  have hout := hcall.out
  have hwithin := hcall.within
  have hinput := (length_transform (z := z) r.member.refill.bufferDescriptor (r.memory.drop r.did)
    hrefill.within.wellFormed).2
  rcases htransform : transform z r.member.refill.transform r.member.refill.bufferDescriptor (r.memory.drop r.did) with
    ⟨⟨input, buffer, out⟩, t⟩
  rw [htransform] at hlength hdata huses hout hwithin hinput
  rw [hkept] at htransform
  rw [htransform] at hheld
  simp only at hlength hdata huses hheld hout hwithin hinput
  subst hout
  obtain ⟨m, hm⟩ : ∃ m : ZipDeflatedMember (InflateTransform ζ), m = { r.member.refill with
      transform := t, bufferDescriptor := input,
      bytesRead := r.member.refill.bytesRead + UInt64.ofNat n } := ⟨_, rfl⟩
  have hround : ZipDeflatedMember.round (inflateTransform z) r =
      .again ⟨r.did + n, r.memory.take r.did ++ buffer, m⟩ := by
    rw [ZipDeflatedMember.round, if_neg hfull]
    simp only [if_neg hempty, inflateTransform, hkept, htransform, hm]
  have hat : MemberAt z R k all m data' := by
    rw [hm]
    refine ⟨hwithin, hheld.not.mpr (not_or.mpr ⟨?_, hcalm⟩), hrefill.pieces, hinput.trans hrefill.buffer⟩
    rw [← hkept]
    exact hrefill.calm
  refine ⟨⟨r.did + n, r.memory.take r.did ++ buffer, m⟩, data', ⟨hlength, hle.trans_eq hlength.symm, hdata, hat⟩,
    .inl ⟨hround, ?_⟩⟩
  -- the buffer or the memory is used up
  have hbefore := hpieces hempty
  simp only [fillsLeft, hlength, if_pos (Nat.not_le.mp hfull)]
  rw [hm]
  simp only
  rcases huses with hnil | hall
  · rw [if_pos hnil]
    split_ifs at hbefore ⊢ <;> omega
  · rw [hall, if_neg (Nat.lt_irrefl _)]
    split_ifs at hbefore ⊢ <;> omega

/-! ### Delivery -/

/-- **Delivery.** For a complete compressed stream, calls of `transform` with any pieces of it and any memories write
exactly its data, exactly if none of them leaves data in zlib; and reads of any sizes, by `TransformReaderStream` or as
a member of a zip file, return the data up to the sizes of the reads, if none of their calls does so. -/
theorem delivery_iff (hz : z.Inflates R k data) :
    (∀ calls : List Call, (∀ call ∈ calls, call.Small) →
      ((Session.fresh z k).Complete z data calls ↔
        ∀ earlier call rest, calls = earlier ++ call :: rest →
          ¬(Machine.after (Session.step z) (Session.fresh z k) earlier).Withholds z call)) ∧
    (∀ pieces memories : List Bytes, pieces.flatten = k.bytes → (∀ piece ∈ pieces, piece ≠ [] ∧ piece.length ≤ 2048) →
      (∀ memory ∈ memories, memory.length ≤ 0xFFFFFFFF) →
      (∀ r, (TransformReaderStream.loop (inflateTransform z)).Visits (.new pieces (new z k.personality)) memories r →
        ¬ReaderWithholds z r) →
      ∃ s, (TransformReaderStream.loop (inflateTransform z)).Reads (.new pieces (new z k.personality)) memories
        (data.take memories.flatten.length) s) ∧
    ∀ pieces memories : List Bytes, pieces.flatten = k.bytes → (∀ piece ∈ pieces, piece ≠ [] ∧ piece.length ≤ 4096) →
      (∀ memory ∈ memories, memory.length ≤ 0xFFFFFFFF) →
      (∀ r, (ZipDeflatedMember.loop (inflateTransform z)).Visits ⟨pieces, new z k.personality, [], 0⟩ memories r →
        ¬MemberWithholds z r) →
      ∃ m, (ZipDeflatedMember.loop (inflateTransform z)).Reads ⟨pieces, new z k.personality, [], 0⟩ memories
        (data.take memories.flatten.length) m := by
  have hstart (pieces : List Bytes) (hbytes : pieces.flatten = k.bytes) :
      Within z R k data (new z k.personality) ([] ++ pieces.flatten) data ∧
        ¬Held (new z k.personality) ([] ++ pieces.flatten) := by
    refine ⟨hbytes ▸ within_new z R k data, ?_⟩
    rintro ⟨hstate, -⟩
    cases k <;> cases hstate
  refine ⟨Session.complete_iff_not_withholds hz, ?_, ?_⟩
  · intro pieces memories hbytes hpieces hsmall hcalm
    refine ReadLoop.reads_data (ReaderAt z R k data) (· ≤ 0xFFFFFFFF) (¬ReaderWithholds z ·) flushesLeft
      (reader_round hz) memories hsmall ?_ hcalm
    obtain ⟨hwithin, hnot⟩ := hstart pieces hbytes
    exact ⟨hwithin, hnot, hpieces, Nat.zero_le _, fun hflushed => by cases hflushed⟩
  · intro pieces memories hbytes hpieces hsmall hcalm
    refine ReadLoop.reads_data (MemberAt z R k data) (· ≤ 0xFFFFFFFF) (¬MemberWithholds z ·) fillsLeft
      (member_round hz) memories hsmall ?_ hcalm
    obtain ⟨hwithin, hnot⟩ := hstart pieces hbytes
    exact ⟨hwithin, hnot, hpieces, Nat.zero_le _⟩

/-! ### A stream whose last byte has data -/

/-- A zlib that knows one stream, and writes its data when it has taken the last byte. -/
def lateStream (stream data : Bytes) : Zlib (Bytes × Bytes) where
  fresh := (stream, data)
  inflateInit2 s _ := (Z_OK, s)
  inflate s input room :=
    if s.1 <+: input then
      ⟨if s.2.length ≤ room then Z_STREAM_END else Z_OK, s.1.length, s.2.take room, ([], s.2.drop room)⟩
    else if input <+: s.1 then ⟨Z_OK, input.length, [], (s.1.drop input.length, s.2)⟩
    else ⟨-3, 0, [], s⟩
  zError _ := lit "data error"
  msg _ := none
  consumed_le s input room := by
    split_ifs with hend hmore
    · exact hend.length_le
    · exact hend.length_le
    · exact Nat.le_refl _
    · exact Nat.zero_le _
  written_le s input room := by
    split_ifs
    · exact List.length_take_le _ _
    · exact List.length_take_le _ _
    · exact Nat.zero_le _
    · exact Nat.zero_le _
  progress {s input room} hinput hroom hresult := by
    split_ifs at hresult ⊢ with hend hall hmore
    · rcases hresult with h | h <;> cases h
    · refine Nat.add_pos_right _ ?_
      simp only [List.length_take]
      omega
    · exact Nat.add_pos_left (List.length_pos_iff.mpr hinput) _
    · rcases hresult with h | h <;> cases h

theorem inflates_lateStream {stream : Bytes} (data : Bytes) (h : stream ≠ []) :
    (lateStream stream data).Inflates (fun s rest data => s = (rest, data)) (.raw stream) data := by
  refine ⟨⟨?_, ?_, ?_, ?_⟩, rfl, rfl, h⟩
  · rintro _ rest data input room rfl - - hagrees
    simp only [lateStream]
    split_ifs with hend hall hmore
    · exact Nat.le_refl _
    · exact Nat.le_refl _
    · exact hmore.length_le
    · exact Nat.zero_le _
  · rintro _ rest data input room rfl - - hagrees
    simp only [lateStream]
    split_ifs
    · exact List.take_prefix _ _
    · exact List.take_prefix _ _
    · exact List.nil_prefix
    · exact List.nil_prefix
  · rintro _ rest data input room rfl - - hagrees
    simp only [lateStream]
    split_ifs with hend hall hmore
    · exact .inl rfl
    · refine .inr (.inr ?_)
      rw [List.length_take]
      exact Nat.min_eq_left (Nat.le_of_not_le hall)
    · exact .inr (.inl rfl)
    · exact absurd hagrees (not_or.mpr ⟨hmore, hend⟩)
  · rintro _ rest data input room rfl hinput hroom hagrees
    simp only [lateStream]
    by_cases hend : rest <+: input
    · simp only [if_pos hend, true_and, List.length_take, List.drop_length]
      by_cases hall : data.length ≤ room
      · rw [if_pos (List.take_of_length_le hall), if_pos hall]
      · have hpart : data.take room ≠ data := by
          intro hsame
          have hlength := congrArg List.length hsame
          rw [List.length_take] at hlength
          omega
        rw [if_neg hpart, if_neg hall, Nat.min_eq_left (Nat.le_of_not_le hall)]
        exact ⟨.inl rfl, rfl⟩
    · have hmore : input <+: rest := hagrees.resolve_right hend
      have hless : input.length ≠ rest.length := fun hlength =>
        hend (hmore.eq_of_length hlength ▸ List.prefix_refl _)
      rw [if_neg hend, if_pos hmore, if_neg fun hall => hless hall.1]
      exact ⟨.inl rfl, rfl⟩

/-- The deflate stream of five bytes of value 0x90; its last byte belongs to a match. -/
def fiveBytes : Bytes := [0x9B, 0x30, 0x01, 0x08, 0x00]

theorem delivery_iff_once :
    (Session.fresh (lateStream fiveBytes [0x90, 0x90, 0x90, 0x90, 0x90]) (.raw fiveBytes)).Complete
      (lateStream fiveBytes [0x90, 0x90, 0x90, 0x90, 0x90]) [0x90, 0x90, 0x90, 0x90, 0x90]
      [⟨5, [0, 0, 0, 0, 0, 0], by decide⟩] := by
  refine ((delivery_iff (inflates_lateStream _ (by decide))).1 _ ?_).mpr ?_
  · rintro call (_ | ⟨_, hnone⟩)
    · exact ⟨by decide, by decide⟩
    · cases hnone
  · rintro (_ | ⟨call', earlier⟩) call rest hcalls
    · cases hcalls
      exact fun hwithholds => hwithholds.2.2.2.2.2 (by decide)
    · rw [List.cons_append, List.cons.injEq, eq_comm (a := []), List.append_eq_nil_iff] at hcalls
      cases hcalls.2.2

/-- There is memory for two of them. -/
theorem not_delivered_late :
    ¬(Session.fresh (lateStream fiveBytes [0x90, 0x90, 0x90, 0x90, 0x90]) (.raw fiveBytes)).Complete
      (lateStream fiveBytes [0x90, 0x90, 0x90, 0x90, 0x90]) [0x90, 0x90, 0x90, 0x90, 0x90]
      [⟨5, [0, 0], by decide⟩] := by
  have hsmall : ∀ call ∈ [(⟨5, [0, 0], by decide⟩ : Call)], call.Small := by
    rintro call (_ | ⟨_, hnone⟩)
    · exact ⟨by decide, by decide⟩
    · cases hnone
  rw [Session.complete_iff_not_withholds (inflates_lateStream _ (by decide)) _ hsmall]
  intro hcalm
  exact hcalm [] _ [] rfl ⟨by decide, by decide, by decide, by decide, by decide, by decide⟩

end InflateTransform

end Afl.Io
