import Afl.Io.Transform.InflateProgress

/-!
# The loops that inflate

`TransformReaderStream::read`, `TransformDataSink::handleData` and `ZipDeflatedMember::read` call a transform until they
have what they need. They go on as long as there is input, and rely on every call to make progress.
-/

namespace Afl.Io

/-! ### Members of zip files -/

/-- A deflated member of a zip file. `pieces` is what the next reads of the file return; then its end is reached. -/
structure ZipDeflatedMember (σ : Type) where
  pieces : List Bytes
  transform : σ
  bufferDescriptor : Bytes
  bytesRead : UInt64

namespace ZipDeflatedMember

variable {σ ε : Type} (T : Transform σ ε)

/-- A `read` in progress: how many bytes it has, and the memory it fills. -/
structure Reading (σ : Type) where
  did : Nat
  memory : Bytes
  member : ZipDeflatedMember σ

def refill (m : ZipDeflatedMember σ) : ZipDeflatedMember σ :=
  if m.bufferDescriptor = [] then { m with pieces := m.pieces.tail, bufferDescriptor := m.pieces.headD [] } else m

def round (r : Reading σ) : Loop.Round (Reading σ) (Except ε Nat × Reading σ) :=
  if r.memory.length ≤ r.did then .leave (.ok r.did, r)
  else
    let m := r.member.refill
    if m.bufferDescriptor = [] then .leave (.ok r.did, { r with member := m })
    else
      let (res, transform) := T.transform m.transform m.bufferDescriptor (r.memory.drop r.did)
      let memory := r.memory.take r.did ++ res.buffer
      let m := { m with transform := transform, bufferDescriptor := res.input }
      match res.out with
      | .error e => .leave (.error e, ⟨r.did, memory, m⟩)
      | .ok out => .again ⟨r.did + out.size, memory, { m with bytesRead := m.bytesRead + UInt64.ofNat out.size }⟩

/-- `read` into some memory comes to an end: with the number of bytes read or an exception, and the memory filled. -/
def Reads (m : ZipDeflatedMember σ) (memory : Bytes) (result : Except ε Nat × Reading σ) : Prop :=
  Loop.Ends (round T) ⟨0, memory, m⟩ result

end ZipDeflatedMember

namespace InflateTransform

variable {ζ : Type} {z : Zlib ζ} {pers : Personality}

theorem length_filled {s : InflateTransform ζ} (input memory : Bytes) (did : Nat) (h : s.WellFormed) :
    (memory.take did ++ (transform z s input (memory.drop did)).1.buffer).length = memory.length := by
  rw [List.length_append, (length_transform input (memory.drop did) h).1, List.length_take, List.length_drop]
  omega

theorem drop_filled_ne_nil {s : InflateTransform ζ} (input : Bytes) {memory : Bytes} {did : Nat} (h : s.WellFormed)
    (hroom : memory.drop did ≠ []) :
    (memory.take did ++ (transform z s input (memory.drop did)).1.buffer).drop did ≠ [] := by
  have hlength := length_filled (z := z) input memory did h
  intro hnil
  rw [List.drop_eq_nil_iff, hlength] at hnil
  exact hroom (List.drop_eq_nil_of_le hnil)

/-! ### Reading through the transform -/

def readerMeasure (r : TransformReaderStream.Reading (InflateTransform ζ)) : Nat :=
  (r.stream.pieces.map List.length).sum + r.stream.pieces.length + r.stream.input.length +
    (r.memory.length - r.did) + if r.stream.flushed then 0 else 1

theorem reader_stuck {r : TransformReaderStream.Reading (InflateTransform ζ)} (h : Reachable z pers r.stream.transform)
    (hstuck : Idles z r.stream.transform r.stream.input (r.memory.drop r.did)) :
    ∃ r', TransformReaderStream.round (inflateTransform z) r = .again r' ∧ Reachable z pers r'.stream.transform ∧
      Idles z r'.stream.transform r'.stream.input (r'.memory.drop r'.did) := by
  obtain ⟨hinput, hroom, hstalled⟩ := hstuck
  obtain ⟨hsame, hout, hend⟩ := transform_of_stalled h.wellFormed hinput hroom hstalled
  have hreachable := h.transform r.stream.input (r.memory.drop r.did)
  have hlength := length_filled (z := z) r.stream.input r.memory r.did h.wellFormed
  have hroom' := drop_filled_ne_nil (z := z) r.stream.input h.wellFormed hroom
  rcases hcall : transform z r.stream.transform r.stream.input (r.memory.drop r.did) with ⟨⟨input, buffer, out⟩, t⟩
  rw [hcall] at hsame hout hend hreachable hlength hroom'
  simp only at hsame hout hend hreachable hlength hroom'
  have hless : ¬r.did + 0 ≥ (r.memory.take r.did ++ buffer).length := by
    rw [hlength]
    intro hle
    exact hroom (List.drop_eq_nil_of_le hle)
  refine ⟨⟨r.did, r.memory.take r.did ++ buffer, { r.stream with
    transform := t, input := input, numBytesRead := r.stream.numBytesRead + UInt64.ofNat 0 }⟩, ?_, hreachable, ?_⟩
  · simp only [TransformReaderStream.round, inflateTransform, hcall, hout]
    rw [if_neg hless, if_neg (hsame.trans_ne hinput)]
    rfl
  · refine ⟨hsame.trans_ne hinput, hroom', ?_⟩
    rw [Stalled, hend]
    trivial

theorem refill_fields (s : TransformReaderStream (InflateTransform ζ)) :
    (s.refill (inflateTransform z)).pieces = s.pieces.tail ∧ (s.refill (inflateTransform z)).input = s.pieces.headD [] ∧
      (s.refill (inflateTransform z)).transform = s.transform ∧
        (s.pieces = [] → (s.refill (inflateTransform z)).flushed = true) := by
  rw [TransformReaderStream.refill]
  split_ifs with hempty
  · exact ⟨rfl, rfl, rfl, fun _ => rfl⟩
  · refine ⟨rfl, rfl, rfl, fun hnone => absurd ?_ hempty⟩
    rw [hnone]
    rfl

theorem readerMeasure_refill {s : TransformReaderStream (InflateTransform ζ)} (memory : Bytes) (did : Nat)
    (hflushed : s.flushed = false) :
    readerMeasure ⟨did, memory, s.refill (inflateTransform z)⟩ < readerMeasure ⟨did, memory, s⟩ := by
  obtain ⟨hpieces, hinput, -, hend⟩ := refill_fields (z := z) s
  rw [readerMeasure, readerMeasure, hpieces, hinput, hflushed]
  cases hsome : s.pieces with
  | nil =>
    rw [hend hsome]
    simp only [List.tail_nil, List.headD_nil, List.map_nil, List.sum_nil, List.length_nil, if_true, Bool.false_eq_true,
      if_false]
    omega
  | cons piece pieces =>
    simp only [List.tail_cons, List.headD_cons, List.map_cons, List.sum_cons, List.length_cons, Bool.false_eq_true,
      if_false]
    split_ifs <;> omega

theorem reader_again {r r' : TransformReaderStream.Reading (InflateTransform ζ)}
    (h : Reachable z pers r.stream.transform)
    (hfree : ¬Idles z r.stream.transform r.stream.input (r.memory.drop r.did))
    (hround : TransformReaderStream.round (inflateTransform z) r = .again r') :
    Reachable z pers r'.stream.transform ∧ readerMeasure r' < readerMeasure r := by
  have hreachable := h.transform r.stream.input (r.memory.drop r.did)
  have hlength := length_filled (z := z) r.stream.input r.memory r.did h.wellFormed
  have hle := (length_transform (z := z) r.stream.input (r.memory.drop r.did) h.wellFormed).2
  have hprogress : r.stream.input ≠ [] → r.memory.drop r.did ≠ [] →
      Progresses r.stream.input (transform z r.stream.transform r.stream.input (r.memory.drop r.did)).1 :=
    fun hinput hroom => transform_of_not_stalled h.wellFormed hinput hroom fun hstalled =>
      hfree ⟨hinput, hroom, hstalled⟩
  rcases hcall : transform z r.stream.transform r.stream.input (r.memory.drop r.did) with ⟨⟨input, buffer, out⟩, t⟩
  rw [hcall] at hreachable hlength hle hprogress
  simp only at hreachable hlength hle
  have htransform : (inflateTransform z).transform = transform z := rfl
  simp only [TransformReaderStream.round, htransform, hcall] at hround
  cases out with
  | error e => cases hround
  | ok out =>
    simp only [ge_iff_le, hlength] at hround
    split_ifs at hround with hfull hempty hflushed <;> cases hround
    · -- the input is used up
      have hkept := (refill_fields (z := z) { r.stream with
        transform := t, input := input, numBytesRead := r.stream.numBytesRead + UInt64.ofNat out.size }).2.2.1
      have hless := readerMeasure_refill (z := z) (s := { r.stream with
        transform := t, input := input, numBytesRead := r.stream.numBytesRead + UInt64.ofNat out.size })
        (r.memory.take r.did ++ buffer) (r.did + out.size) (Bool.eq_false_iff.mpr hflushed)
      constructor
      · exact hkept ▸ hreachable
      · refine hless.trans_le ?_
        simp only [readerMeasure, hlength]
        omega
    · have hinput : r.stream.input ≠ [] := by
        intro hnil
        rw [hnil, List.length_nil, Nat.le_zero_eq, List.length_eq_zero_iff] at hle
        exact hempty hle
      have hroom : r.memory.drop r.did ≠ [] := by
        intro hnil
        have := List.drop_eq_nil_iff.mp hnil
        omega
      refine ⟨hreachable, ?_⟩
      have hmoved : input.length < r.stream.input.length ∨ 0 < out.size := hprogress hinput hroom out rfl
      simp only [readerMeasure, hlength]
      omega

/-- **`TransformReaderStream::read` ends** unless it comes to call a transform that is behind its stream. -/
theorem reads_iff {s : TransformReaderStream (InflateTransform ζ)} (h : Reachable z pers s.transform) (memory : Bytes) :
    (∃ r, s.Reads (inflateTransform z) memory r) ↔
      ∀ r, Loop.Visits (TransformReaderStream.round (inflateTransform z)) ⟨0, memory, s⟩ r →
        ¬Idles z r.stream.transform r.stream.input (r.memory.drop r.did) :=
  Loop.ends_iff_not_stuck
    (I := fun r : TransformReaderStream.Reading (InflateTransform ζ) => Reachable z pers r.stream.transform)
    readerMeasure reader_stuck reader_again h

/-! ### Reading a member of a zip file -/

def memberMeasure (r : ZipDeflatedMember.Reading (InflateTransform ζ)) : Nat :=
  (r.member.pieces.map List.length).sum + r.member.bufferDescriptor.length + (r.memory.length - r.did)

theorem refill_member (m : ZipDeflatedMember (InflateTransform ζ)) :
    m.refill.transform = m.transform ∧
      (m.refill.pieces.map List.length).sum + m.refill.bufferDescriptor.length =
        (m.pieces.map List.length).sum + m.bufferDescriptor.length := by
  rw [ZipDeflatedMember.refill]
  split_ifs with hempty
  · refine ⟨rfl, ?_⟩
    rw [hempty]
    cases m.pieces with
    | nil => rfl
    | cons piece pieces => exact Nat.add_comm _ _
  · exact ⟨rfl, rfl⟩

theorem idles_refill {m : ZipDeflatedMember (InflateTransform ζ)} {memory : Bytes}
    (h : Idles z m.transform m.bufferDescriptor memory) : Idles z m.transform m.refill.bufferDescriptor memory := by
  rwa [ZipDeflatedMember.refill, if_neg h.1]

theorem member_stuck {r : ZipDeflatedMember.Reading (InflateTransform ζ)} (h : Reachable z pers r.member.transform)
    (hstuck : Idles z r.member.transform r.member.refill.bufferDescriptor (r.memory.drop r.did)) :
    ∃ r', ZipDeflatedMember.round (inflateTransform z) r = .again r' ∧ Reachable z pers r'.member.transform ∧
      Idles z r'.member.transform r'.member.refill.bufferDescriptor (r'.memory.drop r'.did) := by
  obtain ⟨hinput, hroom, hstalled⟩ := hstuck
  obtain ⟨hsame, hout, hend⟩ := transform_of_stalled h.wellFormed hinput hroom hstalled
  have hreachable := h.transform r.member.refill.bufferDescriptor (r.memory.drop r.did)
  have hroom' := drop_filled_ne_nil (z := z) r.member.refill.bufferDescriptor h.wellFormed hroom
  have hkept := (refill_member r.member).1
  rcases hcall : transform z r.member.transform r.member.refill.bufferDescriptor (r.memory.drop r.did) with
    ⟨⟨input, buffer, out⟩, t⟩
  rw [hcall] at hsame hout hend hreachable hroom'
  simp only at hsame hout hend hreachable hroom'
  have hless : ¬r.memory.length ≤ r.did := fun hle => hroom (List.drop_eq_nil_of_le hle)
  refine ⟨⟨r.did, r.memory.take r.did ++ buffer, { r.member.refill with
    transform := t, bufferDescriptor := input, bytesRead := r.member.refill.bytesRead + UInt64.ofNat 0 }⟩, ?_,
    hreachable, ?_⟩
  · simp only [ZipDeflatedMember.round, inflateTransform, if_neg hless, if_neg hinput, hkept, hcall, hout]
    rfl
  · have hinput' : input ≠ [] := hsame.trans_ne hinput
    refine idles_refill ⟨hinput', hroom', ?_⟩
    rw [Stalled, hend]
    trivial

theorem member_again {r r' : ZipDeflatedMember.Reading (InflateTransform ζ)} (h : Reachable z pers r.member.transform)
    (hfree : ¬Idles z r.member.transform r.member.refill.bufferDescriptor (r.memory.drop r.did))
    (hround : ZipDeflatedMember.round (inflateTransform z) r = .again r') :
    Reachable z pers r'.member.transform ∧ memberMeasure r' < memberMeasure r := by
  have hreachable := h.transform r.member.refill.bufferDescriptor (r.memory.drop r.did)
  have hlength := length_filled (z := z) r.member.refill.bufferDescriptor r.memory r.did h.wellFormed
  have hle := (length_transform (z := z) r.member.refill.bufferDescriptor (r.memory.drop r.did) h.wellFormed).2
  have hprogress : r.member.refill.bufferDescriptor ≠ [] → r.memory.drop r.did ≠ [] →
      Progresses r.member.refill.bufferDescriptor
        (transform z r.member.transform r.member.refill.bufferDescriptor (r.memory.drop r.did)).1 :=
    fun hinput hroom => transform_of_not_stalled h.wellFormed hinput hroom fun hstalled =>
      hfree ⟨hinput, hroom, hstalled⟩
  obtain ⟨hkept, hsum⟩ := refill_member r.member
  rcases hcall : transform z r.member.transform r.member.refill.bufferDescriptor (r.memory.drop r.did) with
    ⟨⟨input, buffer, out⟩, t⟩
  rw [hcall] at hreachable hlength hle hprogress
  simp only at hreachable hlength hle
  simp only [ZipDeflatedMember.round, inflateTransform, hkept, hcall] at hround
  split_ifs at hround with hfull hempty
  cases out with
  | error e => cases hround
  | ok out =>
    cases hround
    have hroom : r.memory.drop r.did ≠ [] := fun hnil => hfull (List.drop_eq_nil_iff.mp hnil)
    have hmoved : input.length < r.member.refill.bufferDescriptor.length ∨ 0 < out.size :=
      hprogress hempty hroom out rfl
    refine ⟨hreachable, ?_⟩
    simp only [memberMeasure, hlength]
    omega

/-- **`ZipDeflatedMember::read` ends** unless it comes to call a transform that is behind its stream. -/
theorem member_reads_iff {m : ZipDeflatedMember (InflateTransform ζ)} (h : Reachable z pers m.transform)
    (memory : Bytes) :
    (∃ r, m.Reads (inflateTransform z) memory r) ↔
      ∀ r, Loop.Visits (ZipDeflatedMember.round (inflateTransform z)) ⟨0, memory, m⟩ r →
        ¬Idles z r.member.transform r.member.refill.bufferDescriptor (r.memory.drop r.did) :=
  Loop.ends_iff_not_stuck
    (I := fun r : ZipDeflatedMember.Reading (InflateTransform ζ) => Reachable z pers r.member.transform)
    memberMeasure member_stuck member_again h

/-! ### Writing through the transform -/

section Sink

variable {τ : Type} {S : DataSink τ Exception} {factor : Nat} {pending : ζ → Nat}

/-- What a sink has before it: the input, and what that can still expand to. -/
def sinkMeasure (factor : Nat) (pending : ζ → Nat) (h : TransformDataSink.Handling (InflateTransform ζ) τ) : Nat :=
  (factor + 1) * h.data.length + pending h.transform.zStream

/-- The state of the transform, and the size of the local buffer. -/
def InSink (z : Zlib ζ) (pers : Personality) (size : Nat)
    (h : TransformDataSink.Handling (InflateTransform ζ) τ) : Prop :=
  Reachable z pers h.transform ∧ h.buffer.length = size

theorem sink_stuck {size : Nat} {h : TransformDataSink.Handling (InflateTransform ζ) τ} (hI : InSink z pers size h)
    (hstuck : Idles z h.transform h.data h.buffer) :
    ∃ h', TransformDataSink.round (inflateTransform z) S h = .again h' ∧ InSink z pers size h' ∧
      Idles z h'.transform h'.data h'.buffer := by
  obtain ⟨hreachable, hsize⟩ := hI
  obtain ⟨hinput, hroom, hstalled⟩ := hstuck
  obtain ⟨hsame, hout, hend⟩ := transform_of_stalled hreachable.wellFormed hinput hroom hstalled
  have hlength := (length_transform (z := z) h.data h.buffer hreachable.wellFormed).1
  have hreachable' := hreachable.transform h.data h.buffer
  rcases hcall : transform z h.transform h.data h.buffer with ⟨⟨input, buffer, out⟩, t⟩
  rw [hcall] at hsame hout hend hlength hreachable'
  simp only at hsame hout hend hlength hreachable'
  refine ⟨{ h with data := input, buffer := buffer, transform := t }, ?_, ⟨hreachable', hlength.trans hsize⟩, ?_⟩
  · simp only [TransformDataSink.round, inflateTransform, if_neg hinput, hcall, hout, if_true]
  · refine ⟨hsame.trans_ne hinput, ?_, ?_⟩
    · rw [← List.length_pos_iff] at hroom ⊢
      exact hroom.trans_eq hlength.symm
    · rw [Stalled, hend]
      trivial

theorem sink_again {size : Nat} (hz : z.Expands factor pending) (hpos : 0 < size) (hsmall : size ≤ 0xFFFFFFFF)
    {h h' : TransformDataSink.Handling (InflateTransform ζ) τ} (hI : InSink z pers size h)
    (hfree : ¬Idles z h.transform h.data h.buffer)
    (hround : TransformDataSink.round (inflateTransform z) S h = .again h') :
    InSink z pers size h' ∧ sinkMeasure factor pending h' < sinkMeasure factor pending h := by
  obtain ⟨hreachable, hsize⟩ := hI
  have hroom : h.buffer ≠ [] := List.length_pos_iff.mp (hpos.trans_eq hsize.symm)
  obtain ⟨hlength, hle⟩ := length_transform (z := z) h.data h.buffer hreachable.wellFormed
  have hbudget : ∀ out, (transform z h.transform h.data h.buffer).1.out = .ok out →
      factor * (transform z h.transform h.data h.buffer).1.input.length +
          pending (transform z h.transform h.data h.buffer).2.zStream + out.size ≤
        factor * h.data.length + pending h.transform.zStream :=
    fun _ => transform_budget hreachable.wellFormed hz (hsize.trans_le hsmall)
  have hprogress : h.data ≠ [] → Progresses h.data (transform z h.transform h.data h.buffer).1 :=
    fun hinput => transform_of_not_stalled hreachable.wellFormed hinput hroom fun hstalled =>
      hfree ⟨hinput, hroom, hstalled⟩
  have hreachable' := hreachable.transform h.data h.buffer
  rcases hcall : transform z h.transform h.data h.buffer with ⟨⟨input, buffer, out⟩, t⟩
  rw [hcall] at hlength hle hbudget hprogress hreachable'
  simp only at hlength hle hreachable'
  simp only [TransformDataSink.round, inflateTransform, hcall] at hround
  split_ifs at hround with hempty
  cases out with
  | error e => cases hround
  | ok out =>
    have hmoved : input.length < h.data.length ∨ 0 < out.size := hprogress hempty out rfl
    have hpaid : factor * input.length + pending t.zStream + out.size ≤
        factor * h.data.length + pending h.transform.zStream := hbudget out rfl
    have hless : (factor + 1) * input.length + pending t.zStream <
        (factor + 1) * h.data.length + pending h.transform.zStream := by
      rw [Nat.succ_mul, Nat.succ_mul]
      omega
    simp only at hround
    split_ifs at hround with hnone
    · cases hround
      exact ⟨⟨hreachable', hlength.trans hsize⟩, hless⟩
    · split at hround <;> cases hround
      exact ⟨⟨hreachable', hlength.trans hsize⟩, hless⟩

/-- **`TransformDataSink::handleData` ends** unless it comes to call a transform that is behind its stream. -/
theorem handles_iff (hz : z.Expands factor pending) {s : InflateTransform ζ} (h : Reachable z pers s) (other : τ)
    {buffer : Bytes} (hpos : buffer ≠ []) (hsmall : buffer.length ≤ 0xFFFFFFFF) (data : Bytes) :
    (∃ r, TransformDataSink.Handles (inflateTransform z) S ⟨some s, other⟩ buffer data r) ↔
      ∀ h, Loop.Visits (TransformDataSink.round (inflateTransform z) S) ⟨data, false, buffer, s, other⟩ h →
        ¬Idles z h.transform h.data h.buffer := by
  rw [← Loop.ends_iff_not_stuck (I := InSink z pers buffer.length) (sinkMeasure factor pending) sink_stuck
    (sink_again hz (List.length_pos_iff.mpr hpos) hsmall) ⟨h, rfl⟩]
  constructor
  · rintro ⟨r, h, hends, -⟩
    exact ⟨_, hends⟩
  · rintro ⟨⟨result, h⟩, hends⟩
    exact ⟨⟨result, h.data, ⟨some h.transform, h.other⟩⟩, h, hends, rfl⟩

end Sink

/-! ### All of them -/

/-- **Progress.** After any calls, a call with input and memory takes input, writes output or throws exactly when the
transform is not behind its stream; and each of the loops that drive a transform ends exactly when it never makes a call
with input and memory behind the stream. -/
theorem progress_iff {factor : Nat} {pending : ζ → Nat} (hz : z.Expands factor pending) {s : InflateTransform ζ}
    (h : Reachable z pers s) :
    (∀ input memory, input ≠ [] → memory ≠ [] →
      (Progresses input (transform z s input memory).1 ↔ ¬Stalled z s input memory.length)) ∧
    (∀ (stream : TransformReaderStream (InflateTransform ζ)) memory, stream.transform = s →
      ((∃ r, stream.Reads (inflateTransform z) memory r) ↔
        ∀ r, Loop.Visits (TransformReaderStream.round (inflateTransform z)) ⟨0, memory, stream⟩ r →
          ¬Idles z r.stream.transform r.stream.input (r.memory.drop r.did))) ∧
    (∀ (m : ZipDeflatedMember (InflateTransform ζ)) memory, m.transform = s →
      ((∃ r, m.Reads (inflateTransform z) memory r) ↔
        ∀ r, Loop.Visits (ZipDeflatedMember.round (inflateTransform z)) ⟨0, memory, m⟩ r →
          ¬Idles z r.member.transform r.member.refill.bufferDescriptor (r.memory.drop r.did))) ∧
    ∀ {τ : Type} (S : DataSink τ Exception) (other : τ) buffer data, buffer.length = 4096 →
      ((∃ r, TransformDataSink.Handles (inflateTransform z) S ⟨some s, other⟩ buffer data r) ↔
        ∀ h, Loop.Visits (TransformDataSink.round (inflateTransform z) S) ⟨data, false, buffer, s, other⟩ h →
          ¬Idles z h.transform h.data h.buffer) := by
  refine ⟨fun input memory => progresses_iff h.wellFormed, ?_, ?_, ?_⟩
  · rintro stream memory rfl
    exact reads_iff h memory
  · rintro m memory rfl
    exact member_reads_iff h memory
  · intro τ S other buffer data hsize
    refine handles_iff hz h other (List.length_pos_iff.mp (hsize ▸ by decide)) (hsize ▸ by decide) data

/-! ### A byte behind the stream -/

theorem expands_emptyStream (stream : Bytes) : (emptyStream stream).Expands 0 fun _ => 0 := by
  refine ⟨fun _ _ => rfl, fun rest input room => ?_⟩
  simp only [emptyStream]
  split_ifs <;> simp

/-- A raw transform that has reached the end of its stream. -/
def ended : InflateTransform Bytes := ⟨.raw, .endReached, [], 0, 0, 0, []⟩

theorem transform_whole :
    transform (emptyStream [3, 0]) (new (emptyStream [3, 0]) .raw) [3, 0, 7] [0] = (⟨[7], [0], .ok ⟨0, 0⟩⟩, ended) := by
  rw [transform, Loop.complete_of_run measure_round 5 (by rfl)]
  rfl

theorem reachable_ended : Reachable (emptyStream [3, 0]) .raw ended := by
  have hreachable : Reachable (emptyStream [3, 0]) .raw
      (transform (emptyStream [3, 0]) (new (emptyStream [3, 0]) .raw) [3, 0, 7] [0]).2 := .transform .new _ _
  rwa [transform_whole] at hreachable

theorem idles_ended : Idles (emptyStream [3, 0]) ended [7] [0] := ⟨by decide, by decide, trivial⟩

theorem progress_iff_whole :
    Progresses [3, 0, 7] (transform (emptyStream [3, 0]) (new (emptyStream [3, 0]) .raw) [3, 0, 7] [0]).1 := by
  refine ((progress_iff (expands_emptyStream [3, 0]) .new).1 [3, 0, 7] [0] (by decide) (by decide)).mpr ?_
  rintro ⟨-, -, -, -, -, hconsumed, -⟩
  exact absurd hconsumed (by decide)

def nullSink : DataSink Unit Exception := ⟨fun _ _ => (.ok false, [], ())⟩

/-- A byte behind the stream: it is not taken, and no loop comes to an end. -/
theorem not_progresses_behind :
    (∃ s, Reachable (emptyStream [3, 0]) .raw s ∧ ¬Progresses [7] (transform (emptyStream [3, 0]) s [7] [0]).1 ∧
      ∀ buffer, buffer.length = 4096 →
        ¬∃ r, TransformDataSink.Handles (inflateTransform (emptyStream [3, 0])) nullSink ⟨some s, ()⟩ buffer [7] r) ∧
    (¬∃ r, (TransformReaderStream.new [[3, 0, 7]] (new (emptyStream [3, 0]) .raw)).Reads
      (inflateTransform (emptyStream [3, 0])) [0] r) ∧
    ¬∃ r, ZipDeflatedMember.Reads (inflateTransform (emptyStream [3, 0]))
      ⟨[[3, 0, 7]], new (emptyStream [3, 0]) .raw, [], 0⟩ [0] r := by
  refine ⟨⟨ended, reachable_ended, ?_, fun buffer hsize hends => ?_⟩, ?_, ?_⟩
  · rw [progresses_iff reachable_ended.wellFormed (by decide) (by decide), not_not]
    trivial
  · have hbuffer : buffer ≠ [] := List.length_pos_iff.mp (hsize ▸ by decide)
    exact (handles_iff (expands_emptyStream [3, 0]) reachable_ended () hbuffer (hsize ▸ by decide) [7]).mp hends _
      .start ⟨List.cons_ne_nil 7 [], hbuffer, trivial⟩
  · intro hends
    have hfirst : TransformReaderStream.round (inflateTransform (emptyStream [3, 0]))
        ⟨0, [0], .new [[3, 0, 7]] (new (emptyStream [3, 0]) .raw)⟩ =
          .again ⟨0, [0], ⟨[], new (emptyStream [3, 0]) .raw, [3, 0, 7], 0, false⟩⟩ := by
      simp only [TransformReaderStream.round, inflateTransform, TransformReaderStream.new, List.drop_zero,
        transform_nothing]
      rfl
    have hsecond : TransformReaderStream.round (inflateTransform (emptyStream [3, 0]))
        ⟨0, [0], ⟨[], new (emptyStream [3, 0]) .raw, [3, 0, 7], 0, false⟩⟩ =
          .again ⟨0, [0], ⟨[], ended, [7], 0, false⟩⟩ := by
      simp only [TransformReaderStream.round, inflateTransform, List.drop_zero, transform_whole]
      rfl
    exact (reads_iff .new [0]).mp hends _ (.again (.again .start hfirst) hsecond) idles_ended
  · intro hends
    refine (member_reads_iff .new [0]).mp hends ⟨0, [0], ⟨[], ended, [7], 0⟩⟩ (.again .start ?_) idles_ended
    simp only [ZipDeflatedMember.round, ZipDeflatedMember.refill, inflateTransform, if_true, List.headD_cons,
      List.drop_zero, transform_whole]
    rfl

end InflateTransform

end Afl.Io
