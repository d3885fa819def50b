import Afl.Io.Transform.GzipHeader
import Afl.Lib.Machine

/-!
# Gzip framing

However a gzip member is divided among the calls of `transform`, zlib consumes exactly its deflate stream, and eight
bytes are read behind it: as long as zlib is not given more bytes than an `unsigned int` counts.
-/

namespace Afl.Io

variable {ζ : Type}

/-! ### zlib on a deflate stream -/

/-- `R` relates the streams of zlib to what is left of a deflate stream. Given input that agrees with the rest, zlib
takes no bytes behind it, and goes on until it has taken all of it. -/
structure Zlib.Tracks (z : Zlib ζ) (R : ζ → Bytes → Prop) : Prop where
  consumed_le : ∀ {stream rest input room}, R stream rest → input ≠ [] → 0 < room → input <+: rest ∨ rest <+: input →
    (z.inflate stream input room).consumed ≤ rest.length
  result : ∀ {stream rest input room}, R stream rest → input ≠ [] → 0 < room → input <+: rest ∨ rest <+: input →
    (z.inflate stream input room).result = Z_STREAM_END ∧ (z.inflate stream input room).consumed = rest.length ∨
      ((z.inflate stream input room).result = Z_OK ∨ (z.inflate stream input room).result = Z_BUF_ERROR) ∧
        R (z.inflate stream input room).stream (rest.drop (z.inflate stream input room).consumed)

/-- zlib consumes exactly a deflate stream. -/
def Zlib.Consumes (z : Zlib ζ) (data : Bytes) : Prop :=
  (z.inflateInit2 z.fresh (-15)).1 = Z_OK ∧ ∃ R, z.Tracks R ∧ R (z.inflateInit2 z.fresh (-15)).2 data

/-- zlib with a record of the bytes it has consumed. -/
def Zlib.watched (z : Zlib ζ) : Zlib (ζ × Bytes) where
  fresh := (z.fresh, [])
  inflateInit2 stream bits := ((z.inflateInit2 stream.1 bits).1, ((z.inflateInit2 stream.1 bits).2, []))
  inflate stream input room :=
    let did := z.inflate stream.1 input room
    ⟨did.result, did.consumed, did.written, (did.stream, stream.2 ++ input.take did.consumed)⟩
  zError := z.zError
  msg stream := z.msg stream.1
  consumed_le _ _ _ := z.consumed_le _ _ _
  written_le _ _ _ := z.written_le _ _ _
  progress := z.progress

namespace InflateTransform

variable {z : Zlib ζ} {R : ζ → Bytes → Prop} {m : GzipMember} {following later : Bytes}

abbrev loop (z : Zlib ζ) (c : Cursor ζ) : Except Exception Unit × Cursor ζ :=
  Loop.complete (round z) Cursor.measure measure_round c

theorem transform_eq (s : InflateTransform ζ) (input buffer : Bytes) :
    transform z s input buffer =
      (⟨(loop z ⟨s, input, buffer, 0⟩).2.input, (loop z ⟨s, input, buffer, 0⟩).2.memory,
        (loop z ⟨s, input, buffer, 0⟩).1.map fun _ =>
          ⟨0, min (loop z ⟨s, input, buffer, 0⟩).2.memory.length (loop z ⟨s, input, buffer, 0⟩).2.outIndex⟩⟩,
        (loop z ⟨s, input, buffer, 0⟩).2.s) := rfl

/-! ### The record changes nothing -/

/-- A transform without the record. -/
def plain (s : InflateTransform (ζ × Bytes)) : InflateTransform ζ := { s with zStream := s.zStream.1 }

def Cursor.plain (c : Cursor (ζ × Bytes)) : Cursor ζ := { c with s := c.s.plain }

theorem checkString_plain (c : Cursor (ζ × Bytes)) (flag : UInt8) (next : InflateState) :
    checkString flag next c.plain = (checkString flag next c).plain := by
  have hskip : c.plain.skipString next = (c.skipString next).plain := by
    rw [Cursor.skipString, Cursor.skipString, show c.plain.input = c.input from rfl]
    cases c.input.dropWhile (· ≠ 0) <;> rfl
  simp only [checkString, apply_ite Cursor.plain, hskip]
  rfl

theorem checkBytes_plain (c : Cursor (ζ × Bytes)) (present : Bool) (n : Nat) (next : InflateState) :
    checkBytes present n next c.plain = (checkBytes present n next c).plain := by
  simp only [checkBytes, apply_ite Cursor.plain]
  rfl

theorem advance_plain (c : Cursor (ζ × Bytes)) :
    advance z c.plain = (advance z.watched c).map Cursor.plain (Prod.map id Cursor.plain) := by
  cases hstate : c.s.state <;> rw [advance, advance, hstate, show c.plain.s.state = _ from hstate]
  case checkHeader =>
    simp only [checkHeader, apply_ite (Loop.Round.map Cursor.plain (Prod.map id Cursor.plain))]
    rfl
  case checkExtraDataLength =>
    simp only [checkExtraDataLength, Loop.Round.map, apply_ite Cursor.plain]
    rfl
  case checkExtraData =>
    simp only [checkExtraData, Loop.Round.map, apply_ite Cursor.plain]
    rfl
  case checkFileName => exact congrArg _ (checkString_plain c _ _)
  case checkComment => exact congrArg _ (checkString_plain c _ _)
  case checkHeaderCRC => exact congrArg _ (checkBytes_plain c _ _ _)
  case finishedHeader =>
    simp only [finishedHeader, apply_ite (Loop.Round.map Cursor.plain (Prod.map id Cursor.plain))]
    rfl
  case decompressing =>
    simp only [decompressing, apply_ite (Loop.Round.map Cursor.plain (Prod.map id Cursor.plain))]
    rfl
  case checkingTrailer => exact congrArg _ (checkBytes_plain c _ _ _)
  case endReached => rfl

/-- **Watching zlib changes nothing**: a call leaves the same descriptors, and the same transform but for the record. -/
theorem transform_plain (s : InflateTransform (ζ × Bytes)) (input buffer : Bytes) :
    transform z s.plain input buffer =
      ((transform z.watched s input buffer).1, (transform z.watched s input buffer).2.plain) := by
  have hround : ∀ c : Cursor (ζ × Bytes),
      round z c.plain = (round z.watched c).map Cursor.plain (Prod.map id Cursor.plain) := by
    intro c
    simp only [round, apply_ite (Loop.Round.map Cursor.plain (Prod.map id Cursor.plain)), ← advance_plain]
    rfl
  have hloop := Loop.complete_map hround measure_round measure_round ⟨s, input, buffer, 0⟩
  have hrun : loop z ⟨s.plain, input, buffer, 0⟩ =
      Prod.map id Cursor.plain (loop z.watched ⟨s, input, buffer, 0⟩) := hloop
  rw [transform_eq, transform_eq, hrun]
  rfl

/-! ### The invariant -/

/-- Where a transform is in a gzip member, given the bytes that are not read yet, and what is to come of the header. -/
inductive Phase (z : Zlib ζ) (R : ζ → Bytes → Prop) (m : GzipMember) (following : Bytes)
    (s : InflateTransform (ζ × Bytes)) (unread : Bytes) : Bytes → Prop
  | header {todo} (hreading : Reading m.header s todo) (hstream : s.zStream = z.watched.fresh)
      (hunread : unread = todo ++ m.body following) : Phase z R m following s unread todo
  | stream {rest} (hstate : s.state = .decompressing) (hsize : s.size = 0) (hrest : R s.zStream.1 rest)
      (htaken : s.zStream.2 ++ rest = m.stream) (hunread : unread = rest ++ (m.trailer ++ following)) :
      Phase z R m following s unread []
  | trailer {x} (hstate : s.state = .checkingTrailer) (hpart : Counting true 8 s.size x) (hx : x <:+ m.trailer)
      (htaken : s.zStream.2 = m.stream) (hunread : unread = x ++ following) : Phase z R m following s unread []
  | done (hstate : s.state = .endReached) (htaken : s.zStream.2 = m.stream) (hunread : unread = following) :
      Phase z R m following s unread []

/-- zlib is not called any more. -/
def Ended (s : InflateTransform ζ) : Prop := s.state = .checkingTrailer ∨ s.state = .endReached

/-- A call is on its way through a member, and zlib will not get more than it can count. -/
structure Sound (z : Zlib ζ) (R : ζ → Bytes → Prop) (m : GzipMember) (following later : Bytes)
    (c : Cursor (ζ × Bytes)) (todo : Bytes) : Prop where
  personality : c.s.personality = .gzip
  phase : Phase z R m following c.s (c.input ++ later) todo
  counted : Ended c.s ∨ c.input.length ≤ todo.length + 0xFFFFFFFF

variable {c : Cursor (ζ × Bytes)}

theorem inflated_of_small {rest : Bytes} (hz : z.Tracks R) (hbusy : c.Busy)
    (hrest : R c.s.zStream.1 rest) (hagrees : c.input <+: rest ∨ rest <+: c.input)
    (hsmall : c.input.length ≤ 0xFFFFFFFF) :
    ∃ k, k ≤ c.input.length ∧ k ≤ rest.length ∧ (c.update (inflated z.watched c)).input = c.input.drop k ∧
      (inflated z.watched c).stream.2 = c.s.zStream.2 ++ c.input.take k ∧
      ((inflated z.watched c).result = Z_STREAM_END ∧ k = rest.length ∨
        ((inflated z.watched c).result = Z_OK ∨ (inflated z.watched c).result = Z_BUF_ERROR) ∧
          R (inflated z.watched c).stream.1 (rest.drop k)) := by
  have hroom : 0 < convertSize (c.memory.length - c.outIndex) := by
    have hless := hbusy.room
    rw [convertSize]
    omega
  have hdid : inflated z.watched c =
      z.watched.inflate c.s.zStream c.input (convertSize (c.memory.length - c.outIndex)) := by
    rw [inflated, convertSize, Nat.min_eq_left hsmall, List.take_length]
  have hconsumed := z.consumed_le c.s.zStream.1 c.input (convertSize (c.memory.length - c.outIndex))
  rw [hdid]
  refine ⟨_, hconsumed, hz.consumed_le hrest hbusy.input hroom hagrees, ?_, rfl,
    hz.result hrest hbusy.input hroom hagrees⟩
  simp only [Cursor.update, convertSize]
  rw [Nat.min_eq_left hsmall, Nat.sub_sub_self]
  · rfl
  · exact hconsumed

theorem advance_both {input later rest tail : Bytes} (h : input ++ later = rest ++ tail) {k : Nat}
    (hinput : k ≤ input.length) (hrest : k ≤ rest.length) :
    input.take k = rest.take k ∧ input.drop k ++ later = rest.drop k ++ tail := by
  constructor
  · rw [← List.take_append_of_le_length hinput, h, List.take_append_of_le_length hrest]
  · rw [← List.drop_append_of_le_length hinput, h, List.drop_append_of_le_length hrest]

/-- **A round with zlib**, which gets no more than it can count. -/
theorem Sound.decompressing {rest : Bytes} (hz : z.Tracks R) (hbusy : c.Busy)
    (hpersonality : c.s.personality = .gzip) (hsize : c.s.size = 0) (hstate : c.s.state = .decompressing)
    (hrest : R c.s.zStream.1 rest) (htaken : c.s.zStream.2 ++ rest = m.stream)
    (hunread : c.input ++ later = rest ++ (m.trailer ++ following)) (hsmall : c.input.length ≤ 0xFFFFFFFF) :
    ∃ c', InflateTransform.decompressing z.watched c = .again c' ∧ Sound z R m following later c' [] := by
  have hagrees : c.input <+: rest ∨ rest <+: c.input :=
    List.prefix_or_prefix_of_prefix ⟨later, rfl⟩ ⟨_, hunread.symm⟩
  obtain ⟨k, hinput, hk, hupdate, htaken', hresult⟩ := inflated_of_small hz hbusy hrest hagrees hsmall
  obtain ⟨htake, hdrop⟩ := advance_both hunread hinput hk
  rw [htake] at htaken'
  rw [← hupdate] at hdrop
  simp only [InflateTransform.decompressing]
  rcases hresult with ⟨hend, rfl⟩ | ⟨hmore, hR⟩
  · rw [if_pos hend]
    rw [List.drop_length, List.nil_append] at hdrop
    rw [List.take_length, htaken] at htaken'
    refine ⟨_, rfl, hpersonality, .trailer rfl ?_ (List.suffix_refl _) htaken' hdrop, .inl (.inl rfl)⟩
    change Counting true 8 c.s.size _
    rw [hsize]
    exact ⟨by decide, (Nat.zero_add _).trans m.trailer.2⟩
  · -- zlib goes on
    have hround : Sound z R m following later (c.update (inflated z.watched c)) [] := by
      refine ⟨hpersonality, .stream hstate hsize hR ?_ hdrop, .inr ?_⟩
      · change (inflated z.watched c).stream.2 ++ _ = _
        rw [htaken', List.append_assoc, List.take_append_drop, htaken]
      · rw [hupdate, List.length_drop]
        omega
    refine ⟨_, ?_, hround⟩
    rcases hmore with hok | hempty
    · rw [hok, if_neg (by decide), if_pos rfl, ite_self]
    · rw [hempty, if_neg (by decide), if_pos (.inl rfl)]

theorem Sound.checkingTrailer {x : Bytes} (hpersonality : c.s.personality = .gzip)
    (hpart : Counting true 8 c.s.size x) (hx : x <:+ m.trailer) (hstate : c.s.state = .checkingTrailer)
    (htaken : c.s.zStream.2 = m.stream) (hunread : c.input ++ later = x ++ following) :
    Sound z R m following later (InflateTransform.checkingTrailer c) [] := by
  have hpresent : decide (c.s.personality = .gzip) = true := decide_eq_true hpersonality
  obtain ⟨y, hy, hrest, ⟨size, hs, hmore⟩ | ⟨hs, rfl⟩⟩ := hpart.checkBytes hunread .endReached
  · rw [InflateTransform.checkingTrailer, hpresent]
    refine ⟨by rw [hs]; exact hpersonality, .trailer ?_ ?_ (hy.trans hx) ?_ hrest, .inl (.inl ?_)⟩
    · rw [hs]
      exact hstate
    · rw [hs]
      exact hmore
    · rw [hs]
      exact htaken
    · rw [hs]
      exact hstate
  · rw [InflateTransform.checkingTrailer, hpresent]
    refine ⟨by rw [hs]; exact hpersonality, .done ?_ ?_ hrest, .inl (.inr ?_)⟩
    · rw [hs]
    · rw [hs]
      exact htaken
    · rw [hs]

theorem Reading.not_ended {h : GzipHeader} {s : InflateTransform ζ} {todo : Bytes} (hreading : Reading h s todo) :
    ¬Ended s ∧ s.state ≠ .decompressing := by
  rw [Ended]
  cases hreading <;> simp_all

/-- **A round in the header**, or the last one before the stream: zlib is initialized. -/
theorem Phase.header_advance {todo : Bytes} (hinit : (z.inflateInit2 z.fresh (-15)).1 = Z_OK)
    (hR : R (z.inflateInit2 z.fresh (-15)).2 m.stream) (hpersonality : c.s.personality = .gzip)
    (hreading : Reading m.header c.s todo) (hstream : c.s.zStream = z.watched.fresh)
    (hunread : c.input ++ later = todo ++ m.body following) :
    ∃ c' todo', advance z.watched c = .again c' ∧ c'.memory = c.memory ∧ c'.outIndex = c.outIndex ∧
      c'.s.personality = .gzip ∧ ¬Ended c'.s ∧ c'.input.length + todo.length = c.input.length + todo'.length ∧
      Phase z R m following c'.s (c'.input ++ later) todo' := by
  rcases hreading.advance_proceeds (z := z.watched) hunread with
    ⟨c', hround, hframe, todo', hreading', hunread'⟩ | ⟨hstate, hsize, hbody⟩
  · have hlengths := congrArg List.length hunread
    have hlengths' := congrArg List.length hunread'
    simp only [List.length_append] at hlengths hlengths'
    exact ⟨c', todo', hround, hframe.memory, hframe.outIndex, hframe.personality.trans hpersonality,
      hreading'.not_ended.1, by omega, .header hreading' (hframe.zStream.trans hstream) hunread'⟩
  · have htodo : todo = [] := by
      rw [hbody] at hunread
      exact List.append_left_eq_self.mp hunread.symm
    have hwindow : windowBits c.s.personality = -15 := by
      rw [hpersonality]
      rfl
    let c' : Cursor (ζ × Bytes) := { c with
      s := { c.s with zStream := ((z.inflateInit2 z.fresh (-15)).2, []), state := .decompressing } }
    have hround : advance z.watched c = .again c' := by
      rw [advance, hstate]
      simp only [finishedHeader]
      rw [hstream, hwindow]
      exact if_neg (not_not.mpr hinit)
    refine ⟨c', [], hround, rfl, rfl, hpersonality, ?_, by rw [htodo], .stream rfl hsize hR rfl hbody⟩
    rintro (hend | hend) <;> cases hend

/-- **A round of a sound call**: it goes on, and stays sound. -/
theorem Sound.advance {todo : Bytes} (hinit : (z.inflateInit2 z.fresh (-15)).1 = Z_OK)
    (hz : z.Tracks R) (hR : R (z.inflateInit2 z.fresh (-15)).2 m.stream) (h : Sound z R m following later c todo)
    (hbusy : c.Busy) :
    ∃ c' todo', InflateTransform.advance z.watched c = .again c' ∧ Sound z R m following later c' todo' := by
  obtain ⟨hpersonality, hphase, hcounted⟩ := h
  cases hphase with
  | header hreading hstream hunread =>
    obtain ⟨c', todo', hround, -, -, hpersonality', -, hlength, hphase'⟩ :=
      Phase.header_advance hinit hR hpersonality hreading hstream hunread
    refine ⟨c', todo', hround, hpersonality', hphase', .inr ?_⟩
    have hsmall := hcounted.resolve_left hreading.not_ended.1
    omega
  | stream hstate hsize hrest htaken hunread =>
    have hsmall := hcounted.resolve_left (by rw [Ended, hstate]; simp)
    rw [List.length_nil, Nat.zero_add] at hsmall
    obtain ⟨c', hround, hsound⟩ :=
      Sound.decompressing hz hbusy hpersonality hsize hstate hrest htaken hunread hsmall
    exact ⟨c', [], by rw [InflateTransform.advance, hstate]; exact hround, hsound⟩
  | trailer hstate hpart hx htaken hunread =>
    exact ⟨_, [], by rw [InflateTransform.advance, hstate],
      Sound.checkingTrailer hpersonality hpart hx hstate htaken hunread⟩
  | done hstate htaken hunread => exact absurd hstate hbusy.state

theorem round_of_not_busy {c : Cursor ζ} (h : ¬c.Busy) : round z c = .leave (.ok (), c) := by
  rw [round, if_pos]
  by_contra hnot
  simp only [not_or, Nat.not_le] at hnot
  exact h ⟨hnot.1, hnot.2.1, hnot.2.2⟩

/-- A sound call ends without an exception, when one of its descriptors or the member is used up. -/
theorem Sound.loop {todo : Bytes} (hinit : (z.inflateInit2 z.fresh (-15)).1 = Z_OK)
    (hz : z.Tracks R) (hR : R (z.inflateInit2 z.fresh (-15)).2 m.stream) (h : Sound z R m following later c todo) :
    (loop z.watched c).1 = .ok () ∧ (∃ todo, Sound z R m following later (loop z.watched c).2 todo) ∧
      ¬(loop z.watched c).2.Busy := by
  refine (Loop.ends_complete measure_round c).of_invariant (I := fun c => ∃ todo, Sound z R m following later c todo)
    (Q := fun r => r.1 = .ok () ∧ (∃ todo, Sound z R m following later r.2 todo) ∧ ¬r.2.Busy) ?_ ?_ ⟨todo, h⟩
  · rintro c c' ⟨todo, hsound⟩ hround
    by_cases hbusy : c.Busy
    · obtain ⟨c'', todo', hadvance, hsound'⟩ := hsound.advance hinit hz hR hbusy
      rw [hbusy.round_eq, hadvance, Loop.Round.again.injEq] at hround
      exact ⟨todo', hround ▸ hsound'⟩
    · rw [round_of_not_busy hbusy] at hround
      cases hround
  · rintro c r ⟨todo, hsound⟩ hround
    by_cases hbusy : c.Busy
    · obtain ⟨c'', todo', hadvance, -⟩ := hsound.advance hinit hz hR hbusy
      rw [hbusy.round_eq, hadvance] at hround
      cases hround
    · rw [round_of_not_busy hbusy, Loop.Round.leave.injEq] at hround
      subst hround
      exact ⟨rfl, ⟨todo, hsound⟩, hbusy⟩

/-! ### Bytes that are lost -/

/-- Fewer bytes are left than a sound call would have left. -/
def Lost (m : GzipMember) (following later : Bytes) (c : Cursor (ζ × Bytes)) : Prop :=
  match c.s.state with
  | .decompressing =>
    c.s.size = 0 ∧ c.input.length + later.length + c.s.zStream.2.length < (m.body following).length
  | .checkingTrailer =>
    c.input.length + later.length + c.s.zStream.2.length + c.s.size < (m.body following).length
  | .endReached => c.input.length + later.length + c.s.zStream.2.length + 8 < (m.body following).length
  | _ => False

theorem length_update_input {c : Cursor ζ} {did : Inflated ζ} (h : did.consumed ≤ convertSize c.input.length) :
    (c.update did).input.length = convertSize c.input.length - did.consumed := by
  have hle : convertSize c.input.length ≤ c.input.length := Nat.min_le_left _ _
  simp only [Cursor.update, List.length_drop]
  omega

theorem Lost.decompressing (hstate : c.s.state = .decompressing) (hsize : c.s.size = 0)
    (hlost : convertSize c.input.length + later.length + c.s.zStream.2.length < (m.body following).length) :
    (∃ c', InflateTransform.decompressing z.watched c = .again c' ∧ c'.s.personality = c.s.personality ∧
        Lost m following later c') ∨
      ∃ e c', InflateTransform.decompressing z.watched c = .leave (.error e, c') := by
  have hconsumed := inflated_consumed_le z.watched c
  have hinput := length_update_input hconsumed
  have htaken : (inflated z.watched c).stream.2.length ≤ c.s.zStream.2.length + (inflated z.watched c).consumed := by
    change (c.s.zStream.2 ++ List.take _ _).length ≤ _
    rw [List.length_append, List.length_take]
    exact Nat.add_le_add_left (Nat.min_le_left _ _) _
  have hless : (c.update (inflated z.watched c)).input.length + later.length + (inflated z.watched c).stream.2.length <
      (m.body following).length := by
    omega
  have hmore : Lost m following later (c.update (inflated z.watched c)) := by
    rw [Lost, show (c.update (inflated z.watched c)).s.state = .decompressing from hstate]
    exact ⟨hsize, hless⟩
  simp only [InflateTransform.decompressing]
  split_ifs
  · refine .inl ⟨_, rfl, rfl, ?_⟩
    change _ + c.s.size < _
    rw [hsize]
    exact hless
  · exact .inl ⟨_, rfl, rfl, hmore⟩
  · exact .inl ⟨_, rfl, rfl, hmore⟩
  · exact .inr ⟨_, _, rfl⟩

theorem Lost.checkingTrailer (hpersonality : c.s.personality = .gzip) (hstate : c.s.state = .checkingTrailer)
    (hlost : c.input.length + later.length + c.s.zStream.2.length + c.s.size < (m.body following).length) :
    Lost m following later (InflateTransform.checkingTrailer c) := by
  have hskip : (c.skip 8).input.length + (c.skip 8).s.size = c.input.length + c.s.size := by
    simp only [Cursor.skip, List.length_drop, List.length_take]
    omega
  have hless : (c.skip 8).input.length + later.length + c.s.zStream.2.length + (c.skip 8).s.size <
      (m.body following).length := by
    omega
  simp only [InflateTransform.checkingTrailer, checkBytes, decide_eq_true hpersonality, if_true]
  split_ifs with hfull
  · change (c.skip 8).input.length + later.length + c.s.zStream.2.length + 8 < _
    omega
  · rw [Lost, show (c.skip 8).s.state = .checkingTrailer from hstate]
    exact hless

theorem Lost.advance (hpersonality : c.s.personality = .gzip) (hbusy : c.Busy) (hlost : Lost m following later c) :
    (∃ c', InflateTransform.advance z.watched c = .again c' ∧ c'.s.personality = .gzip ∧ Lost m following later c') ∨
      ∃ e c', InflateTransform.advance z.watched c = .leave (.error e, c') := by
  rw [InflateTransform.advance]
  rw [Lost] at hlost
  split at hlost
  next hstate =>
    obtain ⟨hsize, hless⟩ := hlost
    have hle : convertSize c.input.length ≤ c.input.length := Nat.min_le_left _ _
    rw [hstate, ← hpersonality]
    exact Lost.decompressing hstate hsize (by omega)
  next hstate =>
    rw [hstate]
    refine .inl ⟨_, rfl, ?_, Lost.checkingTrailer hpersonality hstate hlost⟩
    exact (frame_checkBytes c _ _ _).personality.trans hpersonality
  next hstate => exact absurd hstate hbusy.state
  next => exact absurd hlost id

/-- A call that is going to give zlib more than it can count, or has done so. -/
def Overfed (z : Zlib ζ) (R : ζ → Bytes → Prop) (m : GzipMember) (following later : Bytes) (c : Cursor (ζ × Bytes)) :
    Prop :=
  c.s.personality = .gzip ∧
    ((∃ todo, Phase z R m following c.s (c.input ++ later) todo ∧ ¬Ended c.s ∧ c.outIndex < c.memory.length ∧
      todo.length + 0xFFFFFFFF < c.input.length) ∨ Lost m following later c)

theorem Overfed.advance (hinit : (z.inflateInit2 z.fresh (-15)).1 = Z_OK)
    (hR : R (z.inflateInit2 z.fresh (-15)).2 m.stream) (hbusy : c.Busy) (h : Overfed z R m following later c) :
    (∃ c', InflateTransform.advance z.watched c = .again c' ∧ Overfed z R m following later c') ∨
      ∃ e c', InflateTransform.advance z.watched c = .leave (.error e, c') := by
  obtain ⟨hpersonality, ⟨todo, hphase, hended, hroom, hlarge⟩ | hlost⟩ := h
  · cases hphase with
    | header hreading hstream hunread =>
      obtain ⟨c', todo', hround, hmemory, hindex, hpersonality', hended', hlength, hphase'⟩ :=
        Phase.header_advance hinit hR hpersonality hreading hstream hunread
      refine .inl ⟨c', hround, hpersonality', .inl ⟨todo', hphase', hended', by rw [hmemory, hindex]; exact hroom, ?_⟩⟩
      omega
    | stream hstate hsize hrest htaken hunread =>
      have hunread' := congrArg List.length hunread
      have htaken' := congrArg List.length htaken
      simp only [List.length_append] at hunread' htaken'
      have hless : convertSize c.input.length + later.length + c.s.zStream.2.length < (m.body following).length := by
        simp only [convertSize, GzipMember.body, List.length_append]
        rw [List.length_nil] at hlarge
        omega
      rw [InflateTransform.advance, hstate]
      obtain ⟨c', hround, hpersonality', hlost⟩ | hleave := Lost.decompressing (z := z) hstate hsize hless
      · exact .inl ⟨c', hround, hpersonality'.trans hpersonality, .inr hlost⟩
      · exact .inr hleave
    | trailer hstate => exact absurd (.inl hstate) hended
    | done hstate => exact absurd (.inr hstate) hended
  · obtain ⟨c', hround, hpersonality', hlost'⟩ | hleave := hlost.advance (z := z) hpersonality hbusy
    · exact .inl ⟨c', hround, hpersonality', .inr hlost'⟩
    · exact .inr hleave

theorem Overfed.loop (hinit : (z.inflateInit2 z.fresh (-15)).1 = Z_OK)
    (hR : R (z.inflateInit2 z.fresh (-15)).2 m.stream) (h : Overfed z R m following later c) :
    (∃ e, (InflateTransform.loop z.watched c).1 = .error e) ∨
      Lost m following later (InflateTransform.loop z.watched c).2 := by
  refine (Loop.ends_complete measure_round c).of_invariant (I := Overfed z R m following later)
    (Q := fun r => (∃ e, r.1 = .error e) ∨ Lost m following later r.2) ?_ ?_ h
  · intro c c' hc hround
    by_cases hbusy : c.Busy
    · rw [hbusy.round_eq] at hround
      obtain ⟨c'', hadvance, hc''⟩ | ⟨e, c'', hadvance⟩ := hc.advance hinit hR hbusy
      · rw [hadvance, Loop.Round.again.injEq] at hround
        exact hround ▸ hc''
      · rw [hadvance] at hround
        cases hround
    · rw [round_of_not_busy hbusy] at hround
      cases hround
  · intro c r hc hround
    by_cases hbusy : c.Busy
    · rw [hbusy.round_eq] at hround
      obtain ⟨c'', hadvance, -⟩ | ⟨e, c'', hadvance⟩ := hc.advance hinit hR hbusy
      · rw [hadvance] at hround
        cases hround
      · rw [hadvance, Loop.Round.leave.injEq] at hround
        exact .inl ⟨e, by rw [← hround]⟩
    · rw [round_of_not_busy hbusy, Loop.Round.leave.injEq] at hround
      subst hround
      obtain ⟨-, ⟨todo, hphase, hended, hroom, hlarge⟩ | hlost⟩ := hc
      · exact absurd ⟨fun hstate => hended (.inr hstate), fun hnil => by simp [hnil] at hlarge, hroom⟩ hbusy
      · exact .inr hlost

/-! ### Calls -/

/-- A call: how many of the bytes that are not read yet it is given, and some memory. -/
structure Call where
  offered : Nat
  memory : Bytes
  nonempty : memory ≠ []

/-- A transform, and the bytes that it has not read yet. -/
structure Session (ζ : Type) where
  transform : InflateTransform ζ
  unread : Bytes

def Session.step (z : Zlib ζ) (s : Session ζ) (call : Call) : Transformed Exception × Session ζ :=
  let (res, t) := InflateTransform.transform z s.transform (s.unread.take call.offered) call.memory
  (res, ⟨t, res.input ++ s.unread.drop call.offered⟩)

def Session.behindHeader (m : GzipMember) (following : Bytes) (s : Session ζ) (call : Call) : Nat :=
  (s.unread.take call.offered).length - (s.unread.length - (m.body following).length)

/-- **Framing**, after a call: it has not thrown, and it has ended because one of its descriptors or the member is used
up; the bytes that zlib has consumed so far are exactly those of the deflate stream that are not left to read, and when
the end is reached, so is the end of the trailer. -/
def Framed (m : GzipMember) (following : Bytes) (r : Transformed Exception × Session (ζ × Bytes)) : Prop :=
  (∃ out, r.1.out = .ok out ∧
    (r.1.input = [] ∨ r.1.buffer.length ≤ out.size ∨ r.2.transform.state = .endReached)) ∧
  match r.2.transform.state with
  | .decompressing =>
    ∃ rest, r.2.transform.zStream.2 ++ rest = m.stream ∧ r.2.unread = rest ++ (m.trailer ++ following)
  | .checkingTrailer =>
    r.2.transform.zStream.2 = m.stream ∧ r.2.unread = m.trailer.1.drop r.2.transform.size ++ following
  | .endReached => r.2.transform.zStream.2 = m.stream ∧ r.2.unread = following
  | _ => r.2.transform.zStream.2 = [] ∧ m.body following <:+ r.2.unread

theorem Phase.length_todo {s : InflateTransform (ζ × Bytes)} {unread todo : Bytes}
    (h : Phase z R m following s unread todo) : todo.length = unread.length - (m.body following).length := by
  have htrailer : m.trailer.1.length = 8 := m.trailer.2
  cases h with
  | header hreading hstream hunread =>
    rw [hunread, List.length_append]
    omega
  | stream hstate hsize hrest htaken hunread =>
    rw [hunread, GzipMember.body, ← htaken]
    simp only [List.length_append, List.length_nil]
    omega
  | trailer hstate hpart hx htaken hunread =>
    have hle := hx.length_le
    rw [hunread, GzipMember.body]
    simp only [List.length_append, List.length_nil]
    omega
  | done hstate htaken hunread =>
    rw [hunread, GzipMember.body]
    simp only [List.length_append, List.length_nil]
    omega

/-- A session that is inside a member, or behind it. -/
def Session.Inside (z : Zlib ζ) (R : ζ → Bytes → Prop) (m : GzipMember) (following : Bytes)
    (s : Session (ζ × Bytes)) : Prop :=
  s.transform.personality = .gzip ∧ ∃ todo, Phase z R m following s.transform s.unread todo

/-- The call that a session makes. -/
def Session.cursor (s : Session ζ) (call : Call) : Cursor ζ :=
  ⟨s.transform, s.unread.take call.offered, call.memory, 0⟩

theorem Session.step_eq (s : Session ζ) (call : Call) :
    s.step z call =
      (⟨(loop z (s.cursor call)).2.input, (loop z (s.cursor call)).2.memory,
        (loop z (s.cursor call)).1.map fun _ =>
          ⟨0, min (loop z (s.cursor call)).2.memory.length (loop z (s.cursor call)).2.outIndex⟩⟩,
        ⟨(loop z (s.cursor call)).2.s, (loop z (s.cursor call)).2.input ++ s.unread.drop call.offered⟩) := rfl

theorem Phase.framed {s : InflateTransform (ζ × Bytes)} {unread todo : Bytes} (h : Phase z R m following s unread todo) :
    match s.state with
    | .decompressing => ∃ rest, s.zStream.2 ++ rest = m.stream ∧ unread = rest ++ (m.trailer ++ following)
    | .checkingTrailer => s.zStream.2 = m.stream ∧ unread = m.trailer.1.drop s.size ++ following
    | .endReached => s.zStream.2 = m.stream ∧ unread = following
    | _ => s.zStream.2 = [] ∧ m.body following <:+ unread := by
  cases h with
  | header hreading hstream hunread =>
    have hstate := hreading.not_ended
    have hheader : s.zStream.2 = [] ∧ m.body following <:+ unread := ⟨by rw [hstream]; rfl, todo, hunread.symm⟩
    split
    next h => exact absurd h hstate.2
    next h => exact absurd (.inl h) hstate.1
    next h => exact absurd (.inr h) hstate.1
    next => exact hheader
  | stream hstate hsize hrest htaken hunread =>
    rw [hstate]
    exact ⟨_, htaken, hunread⟩
  | trailer hstate hpart hx htaken hunread =>
    rw [hstate]
    refine ⟨htaken, ?_⟩
    obtain ⟨-, hlength⟩ : s.size < 8 ∧ s.size + _ = 8 := hpart
    have htrailer : m.trailer.1.length = 8 := m.trailer.2
    rw [hunread, List.suffix_iff_eq_drop.mp hx]
    congr 2
    omega
  | done hstate htaken hunread =>
    rw [hstate]
    exact ⟨htaken, hunread⟩

theorem Session.Inside.step {s : Session (ζ × Bytes)} {call : Call} (hinit : (z.inflateInit2 z.fresh (-15)).1 = Z_OK)
    (hz : z.Tracks R) (hR : R (z.inflateInit2 z.fresh (-15)).2 m.stream) (h : s.Inside z R m following)
    (hfits : Ended s.transform ∨ s.behindHeader m following call < 2 ^ 32) :
    (s.step z.watched call).2.Inside z R m following ∧ Framed m following (s.step z.watched call) := by
  obtain ⟨hpersonality, todo, hphase⟩ := h
  have hsound : Sound z R m following (s.unread.drop call.offered) (s.cursor call) todo := by
    refine ⟨hpersonality, ?_, hfits.imp_right fun hsmall => ?_⟩
    · change Phase z R m following s.transform (s.unread.take call.offered ++ s.unread.drop call.offered) todo
      rwa [List.take_append_drop]
    · change (s.unread.take call.offered).length ≤ _
      rw [Session.behindHeader, ← hphase.length_todo] at hsmall
      omega
  obtain ⟨hok, ⟨todo', hpersonality', hphase', -⟩, hbusy⟩ := hsound.loop hinit hz hR
  rw [Session.step_eq]
  refine ⟨⟨hpersonality', todo', hphase'⟩, ⟨_, by rw [hok]; rfl, ?_⟩, hphase'.framed⟩
  by_contra hnot
  simp only [not_or, Nat.not_le] at hnot
  obtain ⟨hinput, hroom, hstate⟩ := hnot
  refine hbusy ⟨hstate, hinput, ?_⟩
  omega

theorem Lost.not_framed {out : Except Exception Range} (h : Lost m following later c) :
    ¬Framed m following (⟨c.input, c.memory, out⟩, ⟨c.s, c.input ++ later⟩) := by
  have htrailer : m.trailer.1.length = 8 := m.trailer.2
  rintro ⟨-, hframed⟩
  simp only [Lost, GzipMember.body, List.length_append] at h
  split at h
  next hstate =>
    rw [hstate] at hframed
    obtain ⟨rest, htaken, hunread⟩ := hframed
    have htaken' := congrArg List.length htaken
    have hunread' := congrArg List.length hunread
    simp only [List.length_append] at htaken' hunread'
    omega
  next hstate =>
    rw [hstate] at hframed
    have htaken' := congrArg List.length hframed.1
    have hunread' := congrArg List.length hframed.2
    simp only [List.length_append, List.length_drop] at htaken' hunread'
    omega
  next hstate =>
    rw [hstate] at hframed
    have htaken' := congrArg List.length hframed.1
    have hunread' := congrArg List.length hframed.2
    simp only [List.length_append] at htaken' hunread'
    omega
  next => exact h

theorem Session.Inside.not_framed {s : Session (ζ × Bytes)} {call : Call}
    (hinit : (z.inflateInit2 z.fresh (-15)).1 = Z_OK) (hR : R (z.inflateInit2 z.fresh (-15)).2 m.stream)
    (h : s.Inside z R m following) (hended : ¬Ended s.transform) (hlarge : 2 ^ 32 ≤ s.behindHeader m following call) :
    ¬Framed m following (s.step z.watched call) := by
  obtain ⟨hpersonality, todo, hphase⟩ := h
  have hoverfed : Overfed z R m following (s.unread.drop call.offered) (s.cursor call) := by
    refine ⟨hpersonality, .inl ⟨todo, ?_, hended, List.length_pos_iff.mpr call.nonempty, ?_⟩⟩
    · change Phase z R m following s.transform (s.unread.take call.offered ++ s.unread.drop call.offered) todo
      rwa [List.take_append_drop]
    · change _ < (s.unread.take call.offered).length
      rw [Session.behindHeader, ← hphase.length_todo] at hlarge
      omega
  rw [Session.step_eq]
  rcases hoverfed.loop hinit hR with ⟨e, hthrown⟩ | hlost
  · rintro ⟨⟨out, hout, -⟩, -⟩
    rw [hthrown] at hout
    cases hout
  · exact hlost.not_framed

/-- All bytes are unread, and zlib is watched. -/
def Session.start (z : Zlib ζ) (m : GzipMember) (following : Bytes) : Session (ζ × Bytes) :=
  ⟨new z.watched .gzip, m.header.bytes ++ m.body following⟩

theorem not_framed_first (m : GzipMember) (hz : z.Consumes m.stream) (following : Bytes) (call : Call)
    (hall : m.header.bytes.length + (m.body following).length ≤ call.offered)
    (hlarge : 2 ^ 32 ≤ (m.body following).length) :
    ¬Framed m following (Session.step z.watched (Session.start z m following) call) := by
  obtain ⟨hinit, R, -, hR⟩ := hz
  refine Session.Inside.not_framed (R := R) hinit hR ⟨rfl, _, .header (.enter_fixed rfl rfl) rfl rfl⟩ ?_ ?_
  · rintro (h | h) <;> cases h
  · simp only [Session.behindHeader, Session.start, List.length_take, List.length_append]
    omega

def Session.before (z : Zlib ζ) (m : GzipMember) (following : Bytes) (calls : List Call) : Session (ζ × Bytes) :=
  Machine.after (Session.step z.watched) (Session.start z m following) calls

/-- Every call of a run is framed. -/
def AllFramed (z : Zlib ζ) (m : GzipMember) (following : Bytes) (calls : List Call) : Prop :=
  ∀ earlier call rest, calls = earlier ++ call :: rest →
    Framed m following (Session.step z.watched (Session.before z m following earlier) call)

/-- **Gzip framing.** For any gzip member that zlib inflates, any bytes behind it, and any division of them among calls of
`transform` with memory, every call is framed exactly when no call gives zlib 2³² bytes or more: `in` is updated by what
zlib has not counted as well. -/
theorem gzip_framed_iff (m : GzipMember) (hz : z.Consumes m.stream) (following : Bytes) (calls : List Call) :
    AllFramed z m following calls ↔
      ∀ earlier call rest, calls = earlier ++ call :: rest →
        Ended (Session.before z m following earlier).transform ∨
          (Session.before z m following earlier).behindHeader m following call < 2 ^ 32 := by
  obtain ⟨hinit, R, htracks, hR⟩ := hz
  refine Machine.steps_iff (I := Session.Inside z R m following)
    (C := fun s call => Ended s.transform ∨ s.behindHeader m following call < 2 ^ 32)
    (fun hinside hfits => hinside.step hinit htracks hR hfits) (fun hinside hfits => ?_) ?_ calls
  · rw [not_or, Nat.not_lt] at hfits
    exact hinside.not_framed hinit hR hfits.1 hfits.2
  · exact ⟨rfl, _, .header (.enter_fixed rfl rfl) rfl rfl⟩

/-! ### One deflate stream -/

/-- A zlib that knows one deflate stream, and that stream has no data. -/
def emptyStream (stream : Bytes) : Zlib Bytes where
  fresh := stream
  inflateInit2 rest _ := (Z_OK, rest)
  inflate rest input _ :=
    if rest <+: input then ⟨Z_STREAM_END, rest.length, [], []⟩
    else if input <+: rest then ⟨Z_OK, input.length, [], rest.drop input.length⟩
    else ⟨-3, 0, [], rest⟩
  zError _ := lit "data error"
  msg _ := none
  consumed_le rest input _ := by
    split_ifs with hend hmore
    · exact hend.length_le
    · exact Nat.le_refl _
    · exact Nat.zero_le _
  written_le rest input _ := by split_ifs <;> exact Nat.zero_le _
  progress {rest input _} hinput _ hresult := by
    split_ifs at hresult ⊢ with hend hmore
    · rcases hresult with h | h <;> cases h
    · exact Nat.add_pos_left (List.length_pos_iff.mpr hinput) _
    · rcases hresult with h | h <;> cases h

theorem consumes_emptyStream (stream : Bytes) : (emptyStream stream).Consumes stream := by
  refine ⟨rfl, fun rest left => rest = left, ⟨?_, ?_⟩, rfl⟩
  · rintro rest _ input room rfl hinput - hagrees
    simp only [emptyStream]
    split_ifs with hend hmore
    · exact Nat.le_refl _
    · exact hmore.length_le
    · exact Nat.zero_le _
  · rintro rest _ input room rfl hinput - hagrees
    simp only [emptyStream]
    split_ifs with hend hmore
    · exact .inl ⟨rfl, rfl⟩
    · exact .inr ⟨.inl rfl, rfl⟩
    · exact absurd hagrees (not_or.mpr ⟨hmore, hend⟩)

/-- The deflate stream of no data, in a member with all fields. -/
def emptyMember : GzipMember where
  header :=
    ⟨true, ⟨[0, 0, 0, 0, 0, 3], rfl⟩, some ⟨[], by decide⟩, some ⟨lit "a", by decide⟩, some ⟨[], by decide⟩,
      some ⟨[1, 2], rfl⟩⟩
  stream := [3, 0]
  trailer := ⟨[0, 0, 0, 0, 0, 0, 0, 0], rfl⟩

theorem gzip_framed_iff_pieces :
    AllFramed (emptyStream [3, 0]) emptyMember [7]
      [⟨13, [0], by decide⟩, ⟨6, [0], by decide⟩, ⟨40, [0], by decide⟩] := by
  refine (gzip_framed_iff emptyMember (consumes_emptyStream [3, 0]) [7] _).mpr fun earlier call rest hcalls => .inr ?_
  have hoffered : call.offered ≤ 40 := by
    have hmem : call ∈ earlier ++ call :: rest := by simp
    rw [← hcalls] at hmem
    simp only [List.mem_cons, List.not_mem_nil, or_false] at hmem
    rcases hmem with rfl | rfl | rfl <;> decide
  have hle := List.length_take_le call.offered (Session.before (emptyStream [3, 0]) emptyMember [7] earlier).unread
  rw [Session.behindHeader]
  omega

/-- A member and 2³² bytes behind it, in one call. -/
theorem gzip_framed_large :
    ¬AllFramed (emptyStream [3, 0]) emptyMember (List.replicate (2 ^ 32) 0) [⟨2 ^ 33, [0], by decide⟩] := by
  have hheader : emptyMember.header.bytes.length = 17 := by decide
  have hbody : (emptyMember.body (List.replicate (2 ^ 32) 0)).length = 2 + (8 + 2 ^ 32) := by
    rw [GzipMember.body, List.length_append, List.length_append, List.length_replicate, emptyMember.trailer.2]
    exact congrArg (· + (8 + 2 ^ 32)) (show emptyMember.stream.length = 2 from rfl)
  intro hall
  refine not_framed_first emptyMember (consumes_emptyStream [3, 0]) _ ⟨2 ^ 33, [0], by decide⟩ ?_ ?_ (hall [] _ [] rfl)
  · rw [hheader, hbody]
    decide
  · rw [hbody]
    decide

end InflateTransform

end Afl.Io
