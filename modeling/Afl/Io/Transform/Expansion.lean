import Afl.Io.Transform.MsExpand

/-!
# Expanding a file in pieces

A decoder is called with pieces of a file, each behind the input that the call before has left over, and with memory of
any sizes. However the calls stop the decoder, what they write is the reference decoding.
-/

namespace Afl.Io.MsExpandTransform

open Machine

/-- A call with the input that was left over and another piece, and some memory: the bytes that `out` was advanced over,
and the decoder with the input that is left over now. -/
def feed (s : MsExpandTransform × Bytes) (call : Bytes × Bytes) :
    Except Exception Bytes × (MsExpandTransform × Bytes) :=
  let (res, t) := transform s.1 (s.2 ++ call.1) call.2
  (res.out.map fun out => res.buffer.take out.first, (t, res.input))

/-! ### The reference decoding -/

/-- The window of 4096 bytes after a text was written: blanks, and the text, which goes round from position 4080 on. -/
def windowOf (text : Bytes) : Nat → UInt8 :=
  text.zipIdx.foldl (fun window (ch, i) => Function.update window ((4080 + i) % 4096) ch) fun _ => 32

/-- A match is appended byte by byte, so it may go on with bytes of its own. -/
def appendMatch (text : Bytes) (position : Nat) : Nat → Bytes
  | 0 => text
  | count + 1 => appendMatch (text ++ [windowOf text position]) ((position + 1) % 4096) count

/-- LZSS, with the text decoded so far and the bits that are left of the last control byte, the lowest one first. A 1 is
a literal; a 0 is a match of 3 to 18 bytes from a position of 12 bits. -/
def lzss (text : Bytes) : List Bool → Bytes → Bytes
  | _, [] => text
  | [], control :: input => lzss text ((List.range 8).map control.toNat.testBit) input
  | true :: bits, ch :: input => lzss (text ++ [ch]) bits input
  | false :: _, [_] => text
  | false :: bits, low :: high :: input =>
    lzss (appendMatch text (low.toNat + high.toNat / 16 * 256) (high.toNat % 16 + 3)) bits input

/-- The reference decoding of a file, behind its header of 14 bytes. -/
def reference (file : Bytes) : Bytes := lzss [] [] (file.drop 14)

theorem windowOf_append (text : Bytes) (ch : UInt8) :
    windowOf (text ++ [ch]) = Function.update (windowOf text) ((4080 + text.length) % 4096) ch := by
  rw [windowOf, List.zipIdx_append, List.foldl_append, Nat.zero_add]
  rfl

/-- The ring of a decoder that has written a text. -/
def Mirrors (ring : Lzss.Ring (Fin 4096) UInt8) (text : Bytes) : Prop :=
  ring.pos.val = (4080 + text.length) % 4096 ∧ ∀ p : Fin 4096, ring.window p = windowOf text p

theorem mirrors_new : Mirrors new.ring [] := ⟨rfl, fun _ => rfl⟩

theorem val_next (p : Fin 4096) : (next p).val = (p.val + 1) % 4096 := rfl

theorem Mirrors.push {ring : Lzss.Ring (Fin 4096) UInt8} {text : Bytes} (h : Mirrors ring text) (ch : UInt8) :
    Mirrors (ring.push next ch) (text ++ [ch]) := by
  refine ⟨?_, fun p => ?_⟩
  · have hpos := h.1
    rw [Lzss.Ring.push, val_next, List.length_append, List.length_singleton]
    omega
  · change Function.update ring.window ring.pos ch p = _
    rw [windowOf_append]
    by_cases hp : p = ring.pos
    · rw [hp, ← h.1, Function.update_self, Function.update_self]
    · have hval : p.val ≠ (4080 + text.length) % 4096 := fun heq => hp (Fin.ext (heq.trans h.1.symm))
      rw [Function.update_of_ne hp, Function.update_of_ne hval, h.2]

theorem Mirrors.copy {ring : Lzss.Ring (Fin 4096) UInt8} {text : Bytes} (h : Mirrors ring text) (count : Nat)
    (p : Fin 4096) :
    appendMatch text p count = text ++ (ring.copy next count p).1 ∧
      Mirrors (ring.copy next count p).2 (appendMatch text p count) := by
  induction count generalizing ring text p with
  | zero => exact ⟨(List.append_nil text).symm, h⟩
  | succ count ih =>
    obtain ⟨htext, hring⟩ := ih (h.push (ring.window p)) (next p)
    rw [appendMatch, ← h.2 p, ← val_next]
    refine ⟨?_, hring⟩
    rw [htext, List.append_assoc]
    rfl

theorem bits_format (control : UInt8) : format.bits control = (List.range 8).map control.toNat.testBit := by
  have hall : ∀ n : Fin 256, format.bits (UInt8.ofNat n) = (List.range 8).map (UInt8.ofNat n).toNat.testBit := by
    decide +kernel
  have hcontrol := hall ⟨control.toNat, control.toNat_lt⟩
  rwa [UInt8.ofNat_toNat] at hcontrol

theorem place_format (low high : UInt8) : (format.place low high).val = low.toNat + high.toNat / 16 * 256 := by
  have hall : ∀ n : Fin 256, (UInt8.ofNat n &&& 0xF0).toNat = n / 16 * 16 := by decide +kernel
  have hhigh : (high &&& 0xF0).toNat = high.toNat / 16 * 16 := by
    have hhigh := hall ⟨high.toNat, high.toNat_lt⟩
    rwa [UInt8.ofNat_toNat] at hhigh
  have hlow : low.toNat < 2 ^ 8 := low.toNat_lt
  have hbyte := high.toNat_lt
  have hshift : (high &&& 0xF0).toNat <<< 4 = (high.toNat / 16) <<< 8 := by
    rw [hhigh, Nat.shiftLeft_eq, Nat.shiftLeft_eq]
    omega
  change (low.toNat ||| (high &&& 0xF0).toNat <<< 4) % 4096 = _
  rw [hshift, Nat.or_comm, ← Nat.shiftLeft_add_eq_or_of_lt hlow, Nat.shiftLeft_eq]
  omega

theorem count_format (high : UInt8) : format.count high = high.toNat % 16 + 3 := by
  change (high &&& 15).toNat + 3 = _
  rw [UInt8.toNat_and]
  exact congrArg (· + 3) (Nat.and_two_pow_sub_one_eq_mod high.toNat 4)

theorem lzss_eq {ring : Lzss.Ring (Fin 4096) UInt8} {text : Bytes} (h : Mirrors ring text) (bits : List Bool)
    (input : Bytes) : lzss text bits input = text ++ Lzss.decode next format ring bits input := by
  induction text, bits, input using lzss.induct generalizing ring with
  | case1 text bits => rw [lzss, Lzss.decode, List.append_nil]
  | case2 text control input ih => rw [lzss, ih h, Lzss.decode, bits_format]
  | case3 text bits ch input ih =>
    rw [lzss, ih (h.push ch), Lzss.decode, List.append_assoc]
    rfl
  | case4 text bits low => rw [lzss, Lzss.decode, List.append_nil]
  | case5 text bits low high input ih =>
    obtain ⟨htext, hring⟩ := h.copy (format.count high) (format.place low high)
    rw [place_format, count_format] at htext hring
    rw [lzss, ih hring, htext, Lzss.decode, List.append_assoc, count_format]

theorem expand_eq_reference (file : Bytes) : expand file = reference file := (lzss_eq mirrors_new [] _).symm

/-! ### The header -/

/-- While a decoder reads the header, it remembers all that it was fed. -/
def Remembers (fed : Bytes) (s : MsExpandTransform) (input : Bytes) : Prop :=
  s.state = .header → s.count = s.header.length ∧ fed = s.header ++ input

theorem round_of_ne_header {c : Cursor} (h : c.s.state ≠ .header) :
    match round c with
    | .again c' => c'.s.state ≠ .header
    | .leave (r, c') => r = .ok () ∧ c'.s.state ≠ .header := by
  obtain ⟨⟨ring, state, header, control, mask, count, pos, data⟩, input, written, space⟩ := c
  cases state with
  | header => exact absurd rfl h
  | control =>
    cases input with
    | nil => exact ⟨rfl, h⟩
    | cons p input => exact fun h => by cases h
  | readData =>
    by_cases hmask : mask = 0
    · simp [round, hmask]
    · cases input with
      | nil => simp [round, hmask]
      | cons p input =>
        by_cases hliteral : control &&& mask = 0 <;> simp [round, hmask, hliteral]
  | readLength =>
    cases input with
    | nil => exact ⟨rfl, h⟩
    | cons p input => exact fun h => by cases h
  | writeLiteral =>
    cases space with
    | nil => exact ⟨rfl, h⟩
    | cons q space => exact fun h => by cases h
  | writeBackreference =>
    by_cases hcount : count - min count space.length = 0 <;> simp [round, hcount]

theorem round_header {c : Cursor} {fed file : Bytes} (hstate : c.s.state = .header) (h : Remembers fed c.s c.input)
    (hfed : fed <+: file) (hfile : HEADER <+: file) :
    match round c with
    | .again c' => c'.s.state ≠ .header
    | .leave (r, c') => r = .ok () ∧ Remembers fed c'.s c'.input := by
  obtain ⟨⟨ring, state, header, control, mask, count, pos, data⟩, input, written, space⟩ := c
  cases hstate
  obtain ⟨hcount, rfl⟩ := h rfl
  have hsplit : header ++ input.take (headerSize - count) ++ input.drop (headerSize - count) = header ++ input := by
    rw [List.append_assoc, List.take_append_drop]
  simp only [round]
  split_ifs with hfull hmagic
  · have hprefix : header ++ input.take (headerSize - count) <+: file := by
      refine List.IsPrefix.trans ?_ hfed
      rw [← hsplit]
      exact List.prefix_append _ _
    have hlong : HEADER.length ≤ (header ++ input.take (headerSize - count)).length := by
      rw [List.length_append]
      have hsize : HEADER.length ≤ headerSize := by decide
      change count = header.length at hcount
      omega
    exact absurd (List.prefix_iff_eq_take.mp (List.prefix_of_prefix_length_le hfile hprefix hlong)).symm hmagic
  · exact fun h => by cases h
  · refine ⟨rfl, fun _ => ⟨?_, hsplit.symm⟩⟩
    change count + _ = _
    rw [List.length_append, ← show count = header.length from hcount]

theorem transform_ok {s : MsExpandTransform} {input fed file : Bytes} (h : Remembers fed s input)
    (hfed : fed <+: file) (hfile : HEADER <+: file) (buffer : Bytes) :
    (∃ out, (transform s input buffer).1.out = .ok out) ∧
      Remembers fed (transform s input buffer).2 (transform s input buffer).1.input := by
  have hends := Loop.ends_complete measure_round (⟨s, input, [], buffer⟩ : Cursor)
  have hloop : (Loop.complete round Cursor.measure measure_round ⟨s, input, [], buffer⟩).1 = .ok () ∧
      Remembers fed (Loop.complete round Cursor.measure measure_round ⟨s, input, [], buffer⟩).2.s
        (Loop.complete round Cursor.measure measure_round ⟨s, input, [], buffer⟩).2.input := by
    refine Loop.Ends.of_invariant (I := fun c => Remembers fed c.s c.input)
      (Q := fun r => r.1 = .ok () ∧ Remembers fed r.2.s r.2.input) ?_ ?_ h hends
    · intro c c' hc hround
      by_cases hstate : c.s.state = .header
      · have hheader := round_header hstate hc hfed hfile
        rw [hround] at hheader
        exact fun h => absurd h hheader
      · have hother := round_of_ne_header hstate
        rw [hround] at hother
        exact fun h => absurd h hother
    · rintro c ⟨r, c'⟩ hc hround
      by_cases hstate : c.s.state = .header
      · have hheader := round_header hstate hc hfed hfile
        rw [hround] at hheader
        exact hheader
      · have hother := round_of_ne_header hstate
        rw [hround] at hother
        exact ⟨hother.1, fun h => absurd h hother.2⟩
  rw [transform]
  rcases hresult : Loop.complete round Cursor.measure measure_round ⟨s, input, [], buffer⟩ with ⟨r, c⟩
  rw [hresult] at hloop
  obtain ⟨rfl, hremembers⟩ := hloop
  exact ⟨⟨_, rfl⟩, hremembers⟩

/-! ### Runs -/

/-- What holds between the calls: the bytes written so far, and those pending, are the expansion of the file. -/
structure Fed (fed written : Bytes) (s : MsExpandTransform × Bytes) : Prop where
  owed : ∀ later, expand (fed ++ later) = written ++ pending s.1 (s.2 ++ later)
  remembers : Remembers fed s.1 s.2

theorem fed_new : Fed [] [] (new, []) := ⟨fun _ => rfl, fun _ => ⟨rfl, rfl⟩⟩

theorem Fed.feed {fed written file piece : Bytes} {s : MsExpandTransform × Bytes} (h : Fed fed written s)
    (hfed : fed ++ piece <+: file) (hfile : HEADER <+: file) (buffer : Bytes) :
    ∃ out, (feed s (piece, buffer)).1 = .ok out ∧ Fed (fed ++ piece) (written ++ out) (feed s (piece, buffer)).2 ∧
      (out.length = buffer.length ∨ expand (fed ++ piece) = written ++ out) := by
  have hremembers : Remembers (fed ++ piece) s.1 (s.2 ++ piece) := by
    intro hstate
    obtain ⟨hcount, hall⟩ := h.remembers hstate
    exact ⟨hcount, by rw [hall, List.append_assoc]⟩
  obtain ⟨⟨range, hout⟩, hremembers'⟩ := transform_ok hremembers hfed hfile buffer
  obtain ⟨hbuffer, rfl, howed⟩ := transform_spec hout
  refine ⟨produced s.1 (s.2 ++ piece) buffer, ?_, ⟨fun later => ?_, hremembers'⟩, ?_⟩
  · simp only [MsExpandTransform.feed, hout, hbuffer, Except.map, List.take_left]
  · rw [List.append_assoc fed, h.owed, ← List.append_assoc s.2, howed, List.append_assoc written]
    rfl
  · have hall := h.owed piece
    rw [hall, produced, List.length_take]
    rcases Nat.le_total buffer.length (pending s.1 (s.2 ++ piece)).length with hfull | hroom
    · exact .inl (Nat.min_eq_left hfull)
    · exact .inr (by rw [List.take_of_length_le hroom])

theorem Fed.run {fed written file : Bytes} {s : MsExpandTransform × Bytes} (h : Fed fed written s)
    (calls : List (Bytes × Bytes)) (hfed : fed ++ (calls.map Prod.fst).flatten <+: file) (hfile : HEADER <+: file) :
    ∃ outs : List Bytes, outputs MsExpandTransform.feed s calls = outs.map .ok ∧
      Fed (fed ++ (calls.map Prod.fst).flatten) (written ++ outs.flatten) (after MsExpandTransform.feed s calls) := by
  induction calls generalizing fed written s with
  | nil => exact ⟨[], rfl, by simpa [after] using h⟩
  | cons call calls ih =>
    obtain ⟨piece, buffer⟩ := call
    rw [List.map_cons, List.flatten_cons, ← List.append_assoc] at hfed ⊢
    obtain ⟨out, hout, hnext, -⟩ := h.feed ((List.prefix_append _ _).trans hfed) hfile buffer
    obtain ⟨outs, houts, hlast⟩ := ih hnext hfed
    refine ⟨out :: outs, by rw [outputs, hout, houts, List.map_cons], ?_⟩
    rw [List.flatten_cons, ← List.append_assoc]
    exact hlast

/-- **`MsExpandTransform` decodes LZSS**, however the calls divide the file and the memory. For a file with a valid
header no call throws, and the bytes that `out` is advanced over, in order, are the reference decoding: as much of it as
the memory has room for, and all of it unless the last call has filled its memory. -/
theorem msExpand_decodes (calls : List (Bytes × Bytes)) (piece buffer : Bytes)
    (hfile : HEADER <+: ((calls ++ [(piece, buffer)]).map Prod.fst).flatten) :
    ∃ (outs : List Bytes) (last : Bytes),
      outputs feed (new, []) (calls ++ [(piece, buffer)]) = (outs ++ [last]).map .ok ∧
      (outs ++ [last]).flatten <+: reference ((calls ++ [(piece, buffer)]).map Prod.fst).flatten ∧
      (last.length = buffer.length ∨
        (outs ++ [last]).flatten = reference ((calls ++ [(piece, buffer)]).map Prod.fst).flatten) := by
  have hpieces : ((calls ++ [(piece, buffer)]).map Prod.fst).flatten = (calls.map Prod.fst).flatten ++ piece := by
    simp
  rw [hpieces] at hfile ⊢
  rw [← expand_eq_reference]
  obtain ⟨outs, houts, hrun⟩ := fed_new.run calls (List.prefix_append _ piece) hfile
  rw [List.nil_append, List.nil_append] at hrun
  obtain ⟨last, hlast, hend, hroom⟩ := hrun.feed (List.prefix_refl _) hfile buffer
  have hflatten : (outs ++ [last]).flatten = outs.flatten ++ last := by simp
  refine ⟨outs, last, ?_, ?_, ?_⟩
  · rw [outputs_append, houts, outputs, hlast, List.map_append]
    rfl
  · have howed := hend.owed []
    rw [List.append_nil] at howed
    rw [hflatten, howed]
    exact List.prefix_append _ _
  · rw [hflatten]
    exact hroom.imp_right Eq.symm

/-- A compressed file with a literal, and a match that copies it and goes on with its own bytes. -/
def matchFile : Bytes := HEADER ++ lit "x" ++ [4, 0, 0, 0] ++ [1] ++ lit "A" ++ [0xF0, 0xF0]

theorem msExpand_decodes_match :
    ∃ (outs : List Bytes) (last : Bytes),
      outputs feed (new, []) [(matchFile.take 17, [0]), (matchFile.drop 17, [0, 0]), ([], [0, 0])] =
          (outs ++ [last]).map .ok ∧
        (outs ++ [last]).flatten <+: lit "AAAA" ∧ (last.length = 2 ∨ (outs ++ [last]).flatten = lit "AAAA") := by
  have hfile : reference matchFile = lit "AAAA" := by decide
  have hrun := msExpand_decodes [(matchFile.take 17, [0]), (matchFile.drop 17, [0, 0])] [] [0, 0] (by decide)
  have hpieces : (List.map Prod.fst ([(matchFile.take 17, [0]), (matchFile.drop 17, [0, 0])] ++ [([], [0, 0])] :
      List (Bytes × Bytes))).flatten = matchFile := rfl
  rw [hpieces, hfile] at hrun
  exact hrun

end Afl.Io.MsExpandTransform
