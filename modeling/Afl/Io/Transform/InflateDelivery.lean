import Afl.Io.Transform.InflateProgress

/-!
# Delivery

The calls of `transform` on a complete compressed stream, and the data that they deliver. The loop goes on as long as
there is input: data that zlib holds back when it has taken the last byte stays where it is.
-/

namespace Afl.Io

variable {ζ : Type}

/-! ### Compressed streams -/

/-- A complete compressed stream, by personality; a gzip member has a header and a trailer that zlib does not see. -/
inductive Compressed
  | gzip (m : GzipMember)
  | raw (stream : Bytes)
  | zlib (stream : Bytes)

namespace Compressed

def personality : Compressed → Personality
  | gzip _ => .gzip
  | raw _ => .raw
  | zlib _ => .zlib

def stream : Compressed → Bytes
  | gzip m => m.stream
  | raw stream => stream
  | zlib stream => stream

def header : Compressed → Bytes
  | gzip m => m.header.bytes
  | _ => []

def trailer : Compressed → Bytes
  | gzip m => m.trailer
  | _ => []

def bytes (k : Compressed) : Bytes := k.header ++ (k.stream ++ k.trailer)

theorem trailer_of_not_gzip {k : Compressed} (h : k.personality ≠ .gzip) : k.trailer = [] := by
  cases k with
  | gzip m => exact absurd rfl h
  | raw stream => rfl
  | zlib stream => rfl

theorem length_trailer {k : Compressed} (h : k.personality = .gzip) : k.trailer.length = 8 := by
  cases k with
  | gzip m => exact m.trailer.2
  | raw stream => cases h
  | zlib stream => cases h

end Compressed

/-- `R` relates the streams of zlib to what is left of a compressed stream, and to the data that zlib has not written
yet. Given input that agrees with the rest, zlib takes no bytes behind it, writes the next part of the data, stops when
input or memory is used up, and reports the end when it has taken and written everything. -/
structure Zlib.Decodes (z : Zlib ζ) (R : ζ → Bytes → Bytes → Prop) : Prop where
  consumed_le : ∀ {stream rest data input room}, R stream rest data → input ≠ [] → 0 < room →
    input <+: rest ∨ rest <+: input → (z.inflate stream input room).consumed ≤ rest.length
  written : ∀ {stream rest data input room}, R stream rest data → input ≠ [] → 0 < room →
    input <+: rest ∨ rest <+: input → (z.inflate stream input room).written <+: data
  stops : ∀ {stream rest data input room}, R stream rest data → input ≠ [] → 0 < room →
    input <+: rest ∨ rest <+: input → (z.inflate stream input room).result = Z_STREAM_END ∨
      (z.inflate stream input room).consumed = input.length ∨ (z.inflate stream input room).written.length = room
  result : ∀ {stream rest data input room}, R stream rest data → input ≠ [] → 0 < room →
    input <+: rest ∨ rest <+: input →
      if (z.inflate stream input room).consumed = rest.length ∧ (z.inflate stream input room).written = data then
        (z.inflate stream input room).result = Z_STREAM_END
      else
        ((z.inflate stream input room).result = Z_OK ∨ (z.inflate stream input room).result = Z_BUF_ERROR) ∧
          R (z.inflate stream input room).stream (rest.drop (z.inflate stream input room).consumed)
            (data.drop (z.inflate stream input room).written.length)

/-- zlib inflates a compressed stream to some data. -/
structure Zlib.Inflates (z : Zlib ζ) (R : ζ → Bytes → Bytes → Prop) (k : Compressed) (data : Bytes) : Prop where
  decodes : z.Decodes R
  init : (z.inflateInit2 z.fresh (InflateTransform.windowBits k.personality)).1 = Z_OK
  start : R (z.inflateInit2 z.fresh (InflateTransform.windowBits k.personality)).2 k.stream data
  nonempty : k.stream ≠ []

namespace InflateTransform

variable {z : Zlib ζ} {R : ζ → Bytes → Bytes → Prop} {k : Compressed} {all data later : Bytes} {c : Cursor ζ}

/-! ### Where a transform is -/

/-- Where a transform is in a compressed stream of the data `all`, given the bytes that are not read yet, and the data
that is not delivered yet. -/
inductive Stage (z : Zlib ζ) (R : ζ → Bytes → Bytes → Prop) (k : Compressed) (all : Bytes) (s : InflateTransform ζ)
    (unread : Bytes) : Bytes → Prop
  | header {m todo} (hk : k = .gzip m) (hreading : Reading m.header s todo) (hstream : s.zStream = z.fresh)
      (hunread : unread = todo ++ (k.stream ++ k.trailer)) : Stage z R k all s unread all
  | start (hstate : s.state = .finishedHeader) (hsize : s.size = 0) (hstream : s.zStream = z.fresh)
      (hunread : unread = k.stream ++ k.trailer) : Stage z R k all s unread all
  | stream {rest data} (hstate : s.state = .decompressing) (hsize : s.size = 0) (hrest : R s.zStream rest data)
      (hmore : ¬(rest = [] ∧ data = [])) (hunread : unread = rest ++ k.trailer) : Stage z R k all s unread data
  | trailer (hstate : s.state = .checkingTrailer) (hpart : Counting (k.personality = .gzip) 8 s.size unread) :
      Stage z R k all s unread []
  | done (hstate : s.state = .endReached) (hunread : unread = []) : Stage z R k all s unread []

/-- zlib has taken the last byte, and holds data back. -/
def Held (s : InflateTransform ζ) (unread : Bytes) : Prop := s.state = .decompressing ∧ unread = []

variable {s : InflateTransform ζ}

variable {unread : Bytes}

theorem Stage.eq_nil_of_not_held (hz : z.Inflates R k all)
    (h : Stage z R k all s unread data) (hunread : unread = []) (hnot : ¬Held s unread) : data = [] := by
  cases h with
  | header _ _ _ hall =>
    rw [hunread, eq_comm, List.append_eq_nil_iff, List.append_eq_nil_iff] at hall
    exact absurd hall.2.1 hz.nonempty
  | start _ _ _ hall =>
    rw [hunread, eq_comm, List.append_eq_nil_iff] at hall
    exact absurd hall.1 hz.nonempty
  | stream hstate => exact absurd ⟨hstate, hunread⟩ hnot
  | trailer => rfl
  | done => rfl

theorem Stage.ne_nil_of_held (h : Stage z R k all s unread data) (hheld : Held s unread) : data ≠ [] := by
  obtain ⟨hstate, hunread⟩ := hheld
  cases h with
  | header _ hreading => exact absurd hstate hreading.not_ended.2
  | start hstate' => cases hstate'.symm.trans hstate
  | stream _ _ _ hmore hall =>
    rw [hunread, eq_comm, List.append_eq_nil_iff] at hall
    exact fun hdata => hmore ⟨hall.1, hdata⟩
  | trailer hstate' => cases hstate'.symm.trans hstate
  | done hstate' => cases hstate'.symm.trans hstate

theorem Stage.unread_of_ended (h : Stage z R k all s unread data) (hstate : s.state = .endReached) : unread = [] := by
  cases h with
  | header _ hreading => exact absurd (.inr hstate) hreading.not_ended.1
  | start hstate' => cases hstate'.symm.trans hstate
  | stream hstate' => cases hstate'.symm.trans hstate
  | trailer hstate' => cases hstate'.symm.trans hstate
  | done _ hunread => exact hunread

theorem Stage.not_held_of_gzip (h : Stage z R k all s unread data)
    (hgzip : k.personality = .gzip) : ¬Held s unread := by
  rintro ⟨hstate, hunread⟩
  cases h with
  | header _ hreading => exact absurd hstate hreading.not_ended.2
  | start hstate' => cases hstate'.symm.trans hstate
  | stream _ _ _ _ hall =>
    have hlength := congrArg List.length hall
    rw [hunread, List.length_append, k.length_trailer hgzip] at hlength
    cases hlength
  | trailer hstate' => cases hstate'.symm.trans hstate
  | done hstate' => cases hstate'.symm.trans hstate

/-! ### Rounds -/

/-- A call that zlib can count, with what it has written so far. -/
structure Cursor.Fits (c : Cursor ζ) : Prop where
  input : c.input.length ≤ 0xFFFFFFFF
  memory : c.memory.length ≤ 0xFFFFFFFF
  outIndex : c.outIndex ≤ c.memory.length

def Cursor.output (c : Cursor ζ) : Bytes := c.memory.take c.outIndex

theorem Cursor.length_output (h : c.Fits) : c.output.length = c.outIndex := by
  rw [output, List.length_take, Nat.min_eq_left h.outIndex]

theorem update_of_fits {did : Inflated ζ} (h : c.Fits) (hconsumed : did.consumed ≤ c.input.length)
    (hwritten : did.written.length ≤ c.memory.length - c.outIndex) :
    (c.update did).input = c.input.drop did.consumed ∧ (c.update did).outIndex = c.outIndex + did.written.length ∧
      (c.update did).memory.length = c.memory.length ∧ (c.update did).output = c.output ++ did.written ∧
        (c.update did).Fits := by
  have hinput : convertSize c.input.length = c.input.length := Nat.min_eq_left h.input
  have hroom : convertSize (c.memory.length - c.outIndex) = c.memory.length - c.outIndex :=
    Nat.min_eq_left ((Nat.sub_le _ _).trans h.memory)
  have houtput := Cursor.length_output h
  have hindex := h.outIndex
  have hdrop : (c.update did).input = c.input.drop did.consumed := by
    simp only [Cursor.update, hinput]
    rw [Nat.sub_sub_self hconsumed]
  have houtIndex : (c.update did).outIndex = c.outIndex + did.written.length := by
    simp only [Cursor.update, hroom]
    rw [Nat.sub_sub_self hwritten]
  have hmemory : (c.update did).memory = (c.output ++ did.written) ++ c.memory.drop (c.outIndex + did.written.length) :=
    rfl
  have hlength : (c.update did).memory.length = c.memory.length := by
    rw [hmemory, List.length_append, List.length_append, List.length_drop, houtput]
    omega
  refine ⟨hdrop, houtIndex, hlength, ?_, ?_, hlength.trans_le h.memory, ?_⟩
  · rw [Cursor.output, hmemory, houtIndex, List.take_left']
    rw [List.length_append, houtput]
  · rw [hdrop, List.length_drop]
    exact (Nat.sub_le _ _).trans h.input
  · rw [hlength, houtIndex]
    omega

/-- A round goes on, and has written the next part of the data. -/
structure Advances (z : Zlib ζ) (R : ζ → Bytes → Bytes → Prop) (k : Compressed) (all later : Bytes) (c : Cursor ζ)
    (data : Bytes) (c' : Cursor ζ) (data' : Bytes) : Prop where
  personality : c'.s.personality = c.s.personality
  fits : c'.Fits
  memory : c'.memory.length = c.memory.length
  output : c'.output ++ data' = c.output ++ data
  stage : Stage z R k all c'.s (c'.input ++ later) data'

theorem counting_trailer (hsize : s.size = 0) (hunread : unread = k.trailer) :
    Counting (k.personality = .gzip) 8 s.size unread := by
  by_cases hgzip : k.personality = .gzip
  · rw [Counting, if_pos (decide_eq_true hgzip), hsize, hunread]
    exact ⟨by decide, (Nat.zero_add _).trans (k.length_trailer hgzip)⟩
  · rw [Counting, if_neg (by simpa using hgzip), hunread]
    exact ⟨hsize, k.trailer_of_not_gzip hgzip⟩

/-- **A round with zlib.** -/
theorem decompressing_advances {rest : Bytes} (hz : z.Inflates R k all) (hbusy : c.Busy) (hfits : c.Fits)
    (hstate : c.s.state = .decompressing) (hsize : c.s.size = 0) (hrest : R c.s.zStream rest data)
    (hunread : c.input ++ later = rest ++ k.trailer) :
    let did := z.inflate c.s.zStream c.input (c.memory.length - c.outIndex)
    ∃ c' data', decompressing z c = .again c' ∧ Advances z R k all later c data c' data' ∧
      c'.input = c.input.drop did.consumed ∧ c'.outIndex = c.outIndex + did.written.length ∧
        (did.result = Z_STREAM_END ∧ c'.s.state = .checkingTrailer ∧ did.consumed = rest.length ∨
          did.result ≠ Z_STREAM_END ∧ c'.s.state = .decompressing ∧
            (did.consumed = c.input.length ∨ did.written.length = c.memory.length - c.outIndex)) := by
  intro did
  have hroom : 0 < c.memory.length - c.outIndex := Nat.sub_pos_of_lt hbusy.room
  have hagrees : c.input <+: rest ∨ rest <+: c.input :=
    List.prefix_or_prefix_of_prefix ⟨later, rfl⟩ ⟨_, hunread.symm⟩
  have hinflated : inflated z c = did :=
    inflated_of_fits hfits.input ((Nat.sub_le _ _).trans hfits.memory)
  have hconsumed : did.consumed ≤ c.input.length := z.consumed_le _ _ _
  have hbehind : did.consumed ≤ rest.length := hz.decodes.consumed_le hrest hbusy.input hroom hagrees
  have hwritten : did.written.length ≤ c.memory.length - c.outIndex := z.written_le _ _ _
  obtain ⟨hinput, houtIndex, hlength, houtput, hfits'⟩ := update_of_fits hfits hconsumed hwritten
  obtain ⟨-, hleft⟩ := advance_both hunread hconsumed hbehind
  obtain ⟨data', hdata⟩ : did.written <+: data := hz.decodes.written hrest hbusy.input hroom hagrees
  have hresult := hz.decodes.result hrest hbusy.input hroom hagrees
  rw [show z.inflate c.s.zStream c.input (c.memory.length - c.outIndex) = did from rfl] at hresult
  simp only [decompressing, hinflated]
  split_ifs at hresult with hall
  · -- the end of the stream
    obtain ⟨hwhole, hnone⟩ := hall
    rw [if_pos hresult]
    refine ⟨(c.update did).turn .checkingTrailer, [], rfl,
      ⟨rfl, ⟨hfits'.input, hfits'.memory, hfits'.outIndex⟩, hlength, ?_, ?_⟩, hinput, houtIndex,
      .inl ⟨hresult, rfl, hwhole⟩⟩
    · rw [List.append_nil, ← hnone]
      exact houtput
    · refine .trailer rfl (counting_trailer hsize ?_)
      change (c.update did).input ++ later = _
      rw [hinput, hleft, hwhole, List.drop_length, List.nil_append]
  · obtain ⟨hmore, hnext⟩ := hresult
    have hnot : did.result ≠ Z_STREAM_END := by
      rcases hmore with hok | hempty
      · rw [hok]
        decide
      · rw [hempty]
        decide
    have hround (leave : Loop.Round (Cursor ζ) (Except Exception Unit × Cursor ζ)) :
        (if did.result = Z_BUF_ERROR ∨ convertSize c.input.length - did.consumed = 0 then .again (c.update did)
          else if did.result = Z_OK then .again (c.update did) else leave) = .again (c.update did) := by
      rcases hmore with hok | hempty
      · rw [if_pos hok, ite_self]
      · rw [if_pos (.inl hempty)]
    rw [if_neg hnot, hround]
    have hdrop : data.drop did.written.length = data' := by
      rw [← hdata, List.drop_left]
    rw [hdrop] at hnext
    refine ⟨c.update did, data', rfl, ⟨rfl, hfits', hlength, ?_, ?_⟩, hinput, houtIndex, .inr ⟨hnot, hstate, ?_⟩⟩
    · rw [houtput, List.append_assoc, hdata]
    · refine .stream hstate hsize hnext ?_ (hinput ▸ hleft)
      rintro ⟨hnil, rfl⟩
      refine hall ⟨?_, by rwa [List.append_nil] at hdata⟩
      exact Nat.le_antisymm hbehind (List.drop_eq_nil_iff.mp hnil)
    · exact (hz.decodes.stops hrest hbusy.input hroom hagrees).resolve_left hnot

theorem Frame.advances {c' : Cursor ζ} (hframe : Frame c c') (hfits : c.Fits)
    (hinput : c'.input.length ≤ c.input.length) (hstage : Stage z R k all c'.s (c'.input ++ later) data) :
    Advances z R k all later c data c' data := by
  refine ⟨hframe.personality, ⟨hinput.trans hfits.input, ?_, ?_⟩, by rw [hframe.memory], ?_, hstage⟩
  · rw [hframe.memory]
    exact hfits.memory
  · rw [hframe.memory, hframe.outIndex]
    exact hfits.outIndex
  · rw [Cursor.output, Cursor.output, hframe.memory, hframe.outIndex]

def opened (z : Zlib ζ) (s : InflateTransform ζ) : InflateTransform ζ :=
  if s.state = .finishedHeader then
    { s with zStream := (z.inflateInit2 s.zStream (windowBits s.personality)).2, state := .decompressing }
  else s

theorem Keeps.of_again {c' : Cursor ζ} (h : c.s.WellFormed) (hbusy : c.Busy) (hround : advance z c = .again c') :
    Keeps z c c' := by
  have hdoes := advance_does (z := z) h hbusy
  rw [hround] at hdoes
  cases hdoes with
  | moves hkeeps => exact hkeeps
  | turns hkeeps => exact hkeeps

theorem finishedHeader_advances (hz : z.Inflates R k all) (hpersonality : c.s.personality = k.personality)
    (hfits : c.Fits) (hstate : c.s.state = .finishedHeader) (hsize : c.s.size = 0) (hstream : c.s.zStream = z.fresh)
    (hunread : c.input ++ later = k.stream ++ k.trailer) :
    advance z c = .again { c with s := c.s.opened z } ∧
      Advances z R k all later c all { c with s := c.s.opened z } all ∧
        R (c.s.opened z).zStream k.stream all ∧ (c.s.opened z).state = .decompressing ∧ (c.s.opened z).size = 0 := by
  have hopened : c.s.opened z = { c.s with
      zStream := (z.inflateInit2 c.s.zStream (windowBits c.s.personality)).2, state := .decompressing } := if_pos hstate
  have hstart : R (c.s.opened z).zStream k.stream all := by
    rw [hopened, hstream, hpersonality]
    exact hz.start
  have hadvance : advance z c = .again { c with s := c.s.opened z } := by
    rw [advance, hstate]
    simp only [finishedHeader]
    rw [hopened, if_neg]
    rw [hstream, hpersonality, not_not]
    exact hz.init
  refine ⟨hadvance, ⟨by rw [hopened], ⟨hfits.input, hfits.memory, hfits.outIndex⟩, rfl, rfl, ?_⟩, hstart,
    by rw [hopened], by rw [hopened]; exact hsize⟩
  refine .stream (by rw [hopened]) (by rw [hopened]; exact hsize) hstart ?_ hunread
  exact fun hnil => hz.nonempty hnil.1

/-- **A round.** -/
theorem Stage.advance (hz : z.Inflates R k all)
    (hpersonality : c.s.personality = k.personality) (hwellFormed : c.s.WellFormed) (hfits : c.Fits) (hbusy : c.Busy)
    (h : Stage z R k all c.s (c.input ++ later) data) :
    ∃ c' data', InflateTransform.advance z c = .again c' ∧ Advances z R k all later c data c' data' := by
  cases h with
  | @header m todo hk hreading hstream hunread =>
    rcases hreading.advance_proceeds (z := z) hunread with
      ⟨c', hround, hframe, todo', hreading', hunread'⟩ | ⟨hstate, hsize, hbody⟩
    · refine ⟨c', all, hround, hframe.advances hfits (Keeps.of_again hwellFormed hbusy hround).input ?_⟩
      exact .header hk hreading' (hframe.zStream.trans hstream) hunread'
    · obtain ⟨hround, hadvances, -⟩ := finishedHeader_advances hz hpersonality hfits hstate hsize hstream hbody
      exact ⟨_, _, hround, hadvances⟩
  | start hstate hsize hstream hunread =>
    obtain ⟨hround, hadvances, -⟩ := finishedHeader_advances hz hpersonality hfits hstate hsize hstream hunread
    exact ⟨_, _, hround, hadvances⟩
  | stream hstate hsize hrest hmore hunread =>
    obtain ⟨c', data', hround, hadvances, -⟩ :=
      decompressing_advances hz hbusy hfits hstate hsize hrest hunread
    exact ⟨c', data', by rw [InflateTransform.advance, hstate]; exact hround, hadvances⟩
  | trailer hstate hpart =>
    have hround : InflateTransform.advance z c = .again (checkingTrailer c) := by rw [InflateTransform.advance, hstate]
    have hframe : Frame c (checkingTrailer c) := frame_checkBytes c _ _ _
    refine ⟨_, [], hround, hframe.advances hfits (Keeps.of_again hwellFormed hbusy hround).input ?_⟩
    have hpresent : decide (c.s.personality = .gzip) = decide (k.personality = .gzip) := by rw [hpersonality]
    rw [checkingTrailer, hpresent]
    obtain ⟨y, -, hrest, ⟨size, hs, hmore⟩ | ⟨hs, rfl⟩⟩ := hpart.checkBytes (List.append_nil _).symm .endReached
    · rw [List.append_nil] at hrest
      rw [hs, hrest]
      exact .trailer hstate hmore
    · rw [hs, hrest]
      exact .done rfl rfl
  | done hstate hunread => exact absurd hstate hbusy.state

/-! ### Calls -/

/-- A call on its way: it has delivered a part of the data. -/
structure Delivering (z : Zlib ζ) (R : ζ → Bytes → Bytes → Prop) (k : Compressed) (all later : Bytes) (c₀ : Cursor ζ)
    (data : Bytes) (c : Cursor ζ) : Prop where
  personality : c.s.personality = k.personality
  wellFormed : c.s.WellFormed
  fits : c.Fits
  memory : c.memory.length = c₀.memory.length
  stage : ∃ data', c.output ++ data' = c₀.output ++ data ∧ Stage z R k all c.s (c.input ++ later) data'

theorem Delivering.again {c₀ : Cursor ζ} (hz : z.Inflates R k all) (h : Delivering z R k all later c₀ data c)
    (hbusy : c.Busy) : ∃ c', advance z c = .again c' ∧ Delivering z R k all later c₀ data c' := by
  obtain ⟨data', houtput, hstage⟩ := h.stage
  obtain ⟨c', data'', hround, hadvances⟩ := hstage.advance hz h.personality h.wellFormed h.fits hbusy
  exact ⟨c', hround, hadvances.personality.trans h.personality, (Keeps.of_again h.wellFormed hbusy hround).wellFormed,
    hadvances.fits, hadvances.memory.trans h.memory, data'', hadvances.output.trans houtput, hadvances.stage⟩

theorem loop_of_not_busy (h : ¬c.Busy) : loop z c = (.ok (), c) :=
  (Loop.ends_complete measure_round c).eq_of_leave (round_of_not_busy h)

theorem loop_of_again {c' : Cursor ζ} (hbusy : c.Busy) (h : advance z c = .again c') : loop z c = loop z c' :=
  ((Loop.ends_complete measure_round c).next (hbusy.round_eq.trans h)).unique (Loop.ends_complete measure_round c')

/-- **A call** does not throw, and delivers the next part of the data. -/
theorem loop_delivers {c₀ : Cursor ζ} (hz : z.Inflates R k all) (h : Delivering z R k all later c₀ data c₀) :
    (loop z c₀).1 = .ok () ∧ Delivering z R k all later c₀ data (loop z c₀).2 ∧ ¬(loop z c₀).2.Busy := by
  refine (Loop.ends_complete measure_round c₀).of_invariant (I := Delivering z R k all later c₀ data)
    (Q := fun r => r.1 = .ok () ∧ Delivering z R k all later c₀ data r.2 ∧ ¬r.2.Busy) ?_ ?_ h
  · intro c c' hc hround
    by_cases hbusy : c.Busy
    · obtain ⟨c'', hadvance, hc''⟩ := hc.again hz hbusy
      rw [hbusy.round_eq, hadvance, Loop.Round.again.injEq] at hround
      exact hround ▸ hc''
    · rw [round_of_not_busy hbusy] at hround
      cases hround
  · intro c r hc hround
    by_cases hbusy : c.Busy
    · obtain ⟨c'', hadvance, -⟩ := hc.again hz hbusy
      rw [hbusy.round_eq, hadvance] at hround
      cases hround
    · rw [round_of_not_busy hbusy, Loop.Round.leave.injEq] at hround
      subst hround
      exact ⟨rfl, hc, hbusy⟩

/-! ### Data that is held back -/

/-- zlib, given all that is left of a stream without a trailer, takes it, and does not report the end. -/
def Withholds (z : Zlib ζ) (s : InflateTransform ζ) (input later : Bytes) (room : Nat) : Prop :=
  s.personality ≠ .gzip ∧ input ≠ [] ∧ later = [] ∧ 0 < room ∧
    (z.inflate (s.opened z).zStream input room).consumed = input.length ∧
      (z.inflate (s.opened z).zStream input room).result ≠ Z_STREAM_END

theorem opened_opened (s : InflateTransform ζ) : (s.opened z).opened z = s.opened z := by
  rw [opened, if_neg]
  rw [opened]
  split_ifs with hstate
  · exact fun h => by cases h
  · exact hstate

theorem personality_opened (s : InflateTransform ζ) : (s.opened z).personality = s.personality := by
  rw [opened]
  split_ifs <;> rfl

theorem withholds_opened {input : Bytes} {room : Nat} :
    Withholds z (s.opened z) input later room ↔ Withholds z s input later room := by
  rw [Withholds, Withholds, opened_opened, personality_opened]

/-- **Without a trailer, zlib is called once**: what it holds back stays there. -/
theorem held_of_stream {rest : Bytes} (hz : z.Inflates R k all) (hgzip : k.personality ≠ .gzip)
    (hpersonality : c.s.personality = k.personality) (hfits : c.Fits) (hbusy : c.Busy)
    (hstate : c.s.state = .decompressing) (hsize : c.s.size = 0) (hrest : R c.s.zStream rest data)
    (hunread : c.input ++ later = rest) :
    Held (loop z c).2.s ((loop z c).2.input ++ later) ↔
      Withholds z c.s c.input later (c.memory.length - c.outIndex) := by
  have hopened : c.s.opened z = c.s := if_neg (by rw [hstate]; decide)
  have hroom : 0 < c.memory.length - c.outIndex := Nat.sub_pos_of_lt hbusy.room
  have hconsumed := z.consumed_le c.s.zStream c.input (c.memory.length - c.outIndex)
  have hall : c.input ++ later = rest ++ k.trailer := by
    rw [k.trailer_of_not_gzip hgzip, List.append_nil]
    exact hunread
  obtain ⟨c', data', hround, hadvances, hinput, houtIndex, hend | ⟨hresult, hstate', hstops⟩⟩ :=
    decompressing_advances hz hbusy hfits hstate hsize hrest hall
  all_goals
    have hadvance : advance z c = .again c' := by rw [advance, hstate]; exact hround
  · obtain ⟨hresult, hstate', hwhole⟩ := hend
    -- nothing is left
    have hlength := congrArg List.length hunread
    rw [List.length_append] at hlength
    have hnil : c'.input = [] := by
      rw [hinput, hwhole]
      exact List.drop_eq_nil_of_le (by omega)
    rw [loop_of_again hbusy hadvance, loop_of_not_busy fun h => h.input hnil]
    refine iff_of_false (fun h => ?_) fun h => ?_
    · cases hstate'.symm.trans h.1
    · rw [Withholds, hopened] at h
      exact h.2.2.2.2.2 hresult
  · have hidle : ¬c'.Busy := by
      intro h
      rcases hstops with hempty | hfull
      · refine h.input ?_
        rw [hinput, hempty, List.drop_length]
      · have hless := h.room
        rw [houtIndex, hadvances.memory, hfull] at hless
        omega
    rw [loop_of_again hbusy hadvance, loop_of_not_busy hidle, Held, Withholds, hopened, hinput, List.append_eq_nil_iff,
      List.drop_eq_nil_iff]
    constructor
    · rintro ⟨-, hle, hlater⟩
      exact ⟨hpersonality ▸ hgzip, hbusy.input, hlater, hroom, Nat.le_antisymm hconsumed hle, hresult⟩
    · rintro ⟨-, -, hlater, -, hempty, -⟩
      exact ⟨hstate', hempty.ge, hlater⟩

theorem held_iff (hz : z.Inflates R k all) (h : Delivering z R k all later c data c) :
    Held (loop z c).2.s ((loop z c).2.input ++ later) ↔
      Held c.s (c.input ++ later) ∨ Withholds z c.s c.input later (c.memory.length - c.outIndex) := by
  obtain ⟨data', -, hstage⟩ := h.stage
  by_cases hbusy : c.Busy
  · have hnot : ¬Held c.s (c.input ++ later) := fun hheld =>
      hbusy.input (List.append_eq_nil_iff.mp hheld.2).1
    rw [or_iff_right hnot]
    by_cases hgzip : k.personality = .gzip
    · obtain ⟨-, hdelivering, -⟩ := loop_delivers hz h
      obtain ⟨data'', -, hstage'⟩ := hdelivering.stage
      exact iff_of_false (hstage'.not_held_of_gzip hgzip) fun hw => hw.1 (h.personality.trans hgzip)
    · have htrailer : k.trailer = [] := k.trailer_of_not_gzip hgzip
      cases hstage with
      | header hk => exact absurd (by rw [hk]; rfl) hgzip
      | start hstate hsize hstream hunread =>
        obtain ⟨hround, hadvances, hstart, hstate', hsize'⟩ :=
          finishedHeader_advances hz h.personality h.fits hstate hsize hstream hunread
        rw [htrailer, List.append_nil] at hunread
        rw [loop_of_again hbusy hround, ← withholds_opened]
        exact held_of_stream hz hgzip ((personality_opened c.s).trans h.personality) hadvances.fits
          ⟨by rw [hstate']; decide, hbusy.input, hbusy.room⟩ hstate' hsize' hstart hunread
      | stream hstate hsize hrest hmore hunread =>
        rw [htrailer, List.append_nil] at hunread
        exact held_of_stream hz hgzip h.personality h.fits hbusy hstate hsize hrest hunread
      | trailer hstate hpart =>
        rw [Counting, if_neg (by simpa using hgzip)] at hpart
        exact absurd (List.append_eq_nil_iff.mp hpart.2).1 hbusy.input
      | done hstate => exact absurd hstate hbusy.state
  · rw [loop_of_not_busy hbusy]
    refine (or_iff_left fun hw => hbusy ?_).symm
    obtain ⟨-, hinput, -, hroom, -⟩ := hw
    refine ⟨fun hstate => ?_, hinput, Nat.lt_of_sub_pos hroom⟩
    exact hinput (List.append_eq_nil_iff.mp (hstage.unread_of_ended hstate)).1

/-- A transform within a compressed stream. -/
structure Within (z : Zlib ζ) (R : ζ → Bytes → Bytes → Prop) (k : Compressed) (all : Bytes) (s : InflateTransform ζ)
    (unread data : Bytes) : Prop where
  personality : s.personality = k.personality
  wellFormed : s.WellFormed
  stage : Stage z R k all s unread data

theorem within_new (z : Zlib ζ) (R : ζ → Bytes → Bytes → Prop) (k : Compressed) (all : Bytes) :
    Within z R k all (new z k.personality) k.bytes all := by
  refine ⟨rfl, wellFormed_new _, ?_⟩
  cases hk : k with
  | gzip m => exact .header rfl (.enter_fixed rfl rfl) rfl rfl
  | raw stream => exact .start rfl rfl rfl rfl
  | zlib stream => exact .start rfl rfl rfl rfl

/-- **What a call of `transform` delivers**: the next `n` bytes of the data, in its memory. It uses up the input or the
memory. -/
structure Delivers (z : Zlib ζ) (R : ζ → Bytes → Bytes → Prop) (k : Compressed) (all : Bytes) (s : InflateTransform ζ)
    (input later buffer data : Bytes) (n : Nat) (data' : Bytes) : Prop where
  out : (transform z s input buffer).1.out = .ok ⟨0, n⟩
  length : (transform z s input buffer).1.buffer.length = buffer.length
  le : n ≤ buffer.length
  data : (transform z s input buffer).1.buffer.take n ++ data' = data
  within : Within z R k all (transform z s input buffer).2 ((transform z s input buffer).1.input ++ later) data'
  uses : (transform z s input buffer).1.input = [] ∨ n = buffer.length
  held : Held (transform z s input buffer).2 ((transform z s input buffer).1.input ++ later) ↔
    Held s (input ++ later) ∨ Withholds z s input later buffer.length

theorem Within.transform {input buffer : Bytes} (hz : z.Inflates R k all)
    (h : Within z R k all s (input ++ later) data) (hinput : input.length ≤ 0xFFFFFFFF)
    (hbuffer : buffer.length ≤ 0xFFFFFFFF) : ∃ n data', Delivers z R k all s input later buffer data n data' := by
  have hfits : Cursor.Fits ⟨s, input, buffer, 0⟩ := ⟨hinput, hbuffer, Nat.zero_le _⟩
  have hstart : Delivering z R k all later ⟨s, input, buffer, 0⟩ data ⟨s, input, buffer, 0⟩ :=
    ⟨h.personality, h.wellFormed, hfits, rfl, data, rfl, h.stage⟩
  obtain ⟨hok, hdelivering, hidle⟩ := loop_delivers hz hstart
  obtain ⟨data', houtput, hstage⟩ := hdelivering.stage
  have hle := hdelivering.fits.outIndex
  have hlength := hdelivering.memory
  refine ⟨(loop z ⟨s, input, buffer, 0⟩).2.outIndex, data', ?_, hlength, hle.trans_eq hlength, houtput,
    ⟨hdelivering.personality, hdelivering.wellFormed, hstage⟩, ?_, held_iff hz hstart⟩
  · rw [transform_eq, hok, Nat.min_eq_right hle]
    rfl
  · change (loop z ⟨s, input, buffer, 0⟩).2.input = [] ∨ _
    by_contra hnot
    simp only [not_or] at hnot
    refine hidle ⟨fun hstate => hnot.1 ?_, hnot.1, ?_⟩
    · exact (List.append_eq_nil_iff.mp (hstage.unread_of_ended hstate)).1
    · exact lt_of_le_of_ne hle fun hfull => hnot.2 (hfull.trans hlength)

/-! ### Runs of calls -/

def Call.Small (call : Call) : Prop := call.offered ≤ 0xFFFFFFFF ∧ call.memory.length ≤ 0xFFFFFFFF

def written (r : Transformed Exception) : Bytes :=
  match r.out with
  | .ok out => out.bytes r.buffer
  | .error _ => []

namespace Session

def fresh (z : Zlib ζ) (k : Compressed) : Session ζ := ⟨new z k.personality, k.bytes⟩

def output (z : Zlib ζ) (s : Session ζ) (calls : List Call) : Bytes :=
  (Machine.outputs (step z) s calls).flatMap written

/-- The call is given all that is left, and neither takes nor writes anything. -/
def Idle (z : Zlib ζ) (s : Session ζ) (call : Call) : Prop :=
  s.unread.length ≤ call.offered ∧ (s.step z call).1.input = s.unread ∧
    ∃ out, (s.step z call).1.out = .ok out ∧ out.size = 0

/-- **Delivery**: no call throws, the calls write nothing but the data, in its order, and all of it when a call can do
nothing any more. -/
structure Complete (z : Zlib ζ) (s : Session ζ) (data : Bytes) (calls : List Call) : Prop where
  returns : ∀ r ∈ Machine.outputs (step z) s calls, ∃ out, r.out = .ok out
  ahead : s.output z calls <+: data
  whole : ∀ call : Call, call.Small → (Machine.after (step z) s calls).Idle z call → s.output z calls = data

def Withholds (z : Zlib ζ) (s : Session ζ) (call : Call) : Prop :=
  InflateTransform.Withholds z s.transform (s.unread.take call.offered) (s.unread.drop call.offered) call.memory.length

def Held (s : Session ζ) : Prop := InflateTransform.Held s.transform s.unread

theorem within_step {s : Session ζ} {call : Call} (hz : z.Inflates R k all)
    (h : Within z R k all s.transform s.unread data) (hsmall : call.Small) :
    ∃ n data', Delivers z R k all s.transform (s.unread.take call.offered) (s.unread.drop call.offered) call.memory data
      n data' := by
  refine Within.transform hz ?_ ((List.length_take_le _ _).trans hsmall.1) hsmall.2
  rwa [List.take_append_drop]

theorem written_of_delivers {input buffer data' : Bytes} {n : Nat}
    (h : Delivers z R k all s input later buffer data n data') :
    written (InflateTransform.transform z s input buffer).1 ++ data' = data := by
  rw [written, h.out]
  exact h.data

theorem step_nothing (s : Session ζ) (memory : Bytes) (h : memory ≠ []) :
    (s.step z ⟨0, memory, h⟩).1 = ⟨[], memory, .ok ⟨0, 0⟩⟩ :=
  congrArg Prod.fst (transform_nothing s.transform memory)

/-- **A run**: what is held back at its end, one of its calls has withheld. -/
theorem run_delivers (hz : z.Inflates R k all) (calls : List Call) (hsmall : ∀ call ∈ calls, call.Small) {s : Session ζ}
    {data : Bytes} (h : Within z R k all s.transform s.unread data) :
    (∀ r ∈ Machine.outputs (step z) s calls, ∃ out, r.out = .ok out) ∧
      (∃ data', s.output z calls ++ data' = data ∧
        Within z R k all (Machine.after (step z) s calls).transform (Machine.after (step z) s calls).unread data') ∧
      (¬(Machine.after (step z) s calls).Held ↔
        ¬s.Held ∧ ∀ earlier call rest, calls = earlier ++ call :: rest →
          ¬(Machine.after (step z) s earlier).Withholds z call) := by
  induction calls generalizing s data with
  | nil =>
    refine ⟨fun r hr => absurd hr List.not_mem_nil, ⟨data, rfl, h⟩, (and_iff_left ?_).symm⟩
    intro earlier call rest hnone
    rw [eq_comm, List.append_eq_nil_iff] at hnone
    cases hnone.2
  | cons call calls ih =>
    obtain ⟨n, data', hcall⟩ := within_step hz h (hsmall call List.mem_cons_self)
    obtain ⟨hreturns, ⟨data'', houtput, hafter⟩, hheld⟩ :=
      ih (fun call' hmem => hsmall call' (List.mem_cons_of_mem call hmem)) (s := (s.step z call).2) hcall.within
    refine ⟨?_, ⟨data'', ?_, hafter⟩, ?_⟩
    · rintro r (_ | ⟨_, hr⟩)
      · exact ⟨_, hcall.out⟩
      · exact hreturns r hr
    · rw [output, Machine.outputs, List.flatMap_cons, List.append_assoc]
      exact (congrArg _ houtput).trans (written_of_delivers hcall)
    · have hsplit : s.unread.take call.offered ++ s.unread.drop call.offered = s.unread := List.take_append_drop _ _
      have hfirst : (s.step z call).2.Held ↔ s.Held ∨ s.Withholds z call := by
        have hcallHeld := hcall.held
        rw [hsplit] at hcallHeld
        exact hcallHeld
      rw [Machine.forall_splits_cons (P := fun earlier call => ¬(Machine.after (step z) s earlier).Withholds z call),
        ← and_assoc]
      refine hheld.trans (and_congr_left' ?_)
      rw [hfirst, not_or]
      rfl

/-- **Delivery**, whatever the division into calls: exactly if no call withholds data. -/
theorem complete_iff_not_withholds (hz : z.Inflates R k all) (calls : List Call) (hsmall : ∀ call ∈ calls, call.Small) :
    (fresh z k).Complete z all calls ↔
      ∀ earlier call rest, calls = earlier ++ call :: rest →
        ¬(Machine.after (step z) (fresh z k) earlier).Withholds z call := by
  obtain ⟨hreturns, ⟨data', houtput, hafter⟩, hheld⟩ :=
    run_delivers hz calls hsmall (s := fresh z k) (within_new z R k all)
  have hstart : ¬(fresh z k).Held := by
    rintro ⟨hstate, -⟩
    cases k <;> cases hstate
  rw [and_iff_right hstart] at hheld
  rw [← hheld]
  constructor
  · intro hcomplete hnow
    -- a call without input does nothing
    have hidle : (Machine.after (step z) (fresh z k) calls).Idle z ⟨0, [0], List.cons_ne_nil 0 []⟩ := by
      rw [Idle, step_nothing, hnow.2]
      exact ⟨Nat.le_refl _, rfl, ⟨0, 0⟩, rfl, rfl⟩
    have hall := hcomplete.whole _ ⟨Nat.zero_le _, by decide⟩ hidle
    rw [hall, List.append_right_eq_self] at houtput
    exact hafter.stage.ne_nil_of_held hnow houtput
  · intro hnot
    refine ⟨hreturns, ⟨data', houtput⟩, ?_⟩
    rintro call hcallSmall ⟨hgiven, hinput, out, hout, hsize⟩
    obtain ⟨n, data'', hcall⟩ := within_step hz hafter hcallSmall
    have hn : n = 0 := by
      have hsame := hcall.out.symm.trans hout
      rw [Except.ok.injEq] at hsame
      rw [← hsize, ← hsame]
    have hnil : (Machine.after (step z) (fresh z k) calls).unread = [] := by
      rw [← hinput]
      refine hcall.uses.resolve_right fun hfull => call.nonempty ?_
      exact List.length_eq_zero_iff.mp (hfull.symm.trans hn)
    rw [← houtput, hafter.stage.eq_nil_of_not_held hz hnil hnot, List.append_nil]

end Session

end InflateTransform

end Afl.Io
