import Afl.Io.Xml.Lockstep
import Afl.Lib.Run

/-!
# Positions in an XML document

`getPos()` and `setPos()` of `afl/io/xml/reader.cpp`. The position of a token is that of its first character. `At` says
how far the reader's count of bytes is from the truth: `detectEncoding()` does not count a byte order mark, and
`setPos()` begins a new count. `Standing` adds that the current character is where the reader says it is. A reader that
goes back to a token reads on as before if its count was right and if it decodes characters as it did then.
-/

namespace Afl.Io.Xml

namespace Input

/-! ### Counting bytes -/

/-- `shift` more bytes of the document have been consumed than the reader has counted. -/
structure At (data : Bytes) (shift : Nat) (i : Input) : Prop where
  stream : i.stream.data = data
  rest : i.rest = data.drop (i.bufferPos + shift)

variable {data : Bytes} {shift : Nat} {i j : Input}

theorem At.eat (h : At data shift i) : At data shift i.eat.2 := by
  unfold Input.eat
  cases hbuffer : i.buffer with
  | nil => exact h
  | cons a buffer =>
    refine ⟨h.stream, ?_⟩
    have hrest := h.rest
    rw [Input.rest, hbuffer, List.cons_append] at hrest
    have htail := congrArg List.tail hrest
    rwa [List.tail_cons, List.tail_drop, Nat.add_right_comm] at htail

theorem At.readByte (h : At data shift i) : At data shift i.readByte.2 := by
  unfold Input.readByte
  cases hbuffer : i.buffer with
  | nil =>
    have hrefill : At data shift i.refillBuffer := ⟨h.stream, by rw [rest_refillBuffer hbuffer]; exact h.rest⟩
    exact hrefill.eat
  | cons a buffer => exact h.eat

theorem readByte_charPos (i : Input) : i.readByte.2.charPos = i.charPos := by
  have heat : ∀ i : Input, i.eat.2.charPos = i.charPos := by
    intro i
    unfold eat
    split <;> rfl
  unfold readByte
  split
  · exact heat _
  · exact heat _

theorem withByte_keeps {P : Input → Prop} {f : UInt8 → Input → Input} (hbyte : ∀ {i}, P i → P i.readByte.2)
    (hended : ∀ {i}, P i → P i.ended) (hf : ∀ {a i}, P i → P (f a i)) (h : P i) : P (i.withByte f) := by
  have hread := hbyte h
  unfold withByte
  rcases hr : i.readByte with ⟨_ | a, j⟩ <;> rw [hr] at hread
  · exact hended hread
  · exact hf hread

theorem readNextChar_keeps {P : Input → Prop} (hbyte : ∀ {i}, P i → P i.readByte.2)
    (hended : ∀ {i}, P i → P i.ended) (hfound : ∀ {i} {ch : Charset.Unichar}, P i → P (i.found ch))
    (h : P { i with charPos := i.bufferPos }) : P i.readNextChar := by
  unfold readNextChar
  have hwith : ∀ {f : UInt8 → Input → Input} {i : Input}, (∀ {a i}, P i → P (f a i)) → P i → P (i.withByte f) :=
    fun hf hi => withByte_keeps hbyte hended hf hi
  simp only
  split
  · exact hwith hfound h
  · refine hwith (fun {a i} hi => ?_) h
    split_ifs
    · exact hwith hfound hi
    · exact hwith (hwith hfound) hi
    · exact hfound hi
  · exact hwith (hwith hfound) h
  · exact hwith (hwith hfound) h

theorem readNextChar_charPos (i : Input) : i.readNextChar.charPos = i.bufferPos :=
  readNextChar_keeps (P := fun j => j.charPos = i.bufferPos) (fun hi => (readByte_charPos _).trans hi) (fun hi => hi)
    (fun hi => hi) rfl

theorem At.readNextChar (h : At data shift i) : At data shift i.readNextChar :=
  readNextChar_keeps At.readByte (fun hi => ⟨hi.stream, hi.rest⟩) (fun hi => ⟨hi.stream, hi.rest⟩) ⟨h.stream, h.rest⟩

/-- The current character is where the reader says it is. -/
structure Standing (data : Bytes) (shift : Nat) (i : Input) : Prop where
  place : At data shift i
  current : i.haveCurrentCharacter = true →
    nextChar i.encoding i.codepage (data.drop (i.charPos + shift)) = some (i.currentCharacter, i.rest)

theorem At.standing (h : At data shift i) : Standing data shift i.readNextChar := by
  refine ⟨h.readNextChar, fun hhave => ?_⟩
  obtain ⟨hencoding, hcodepage, hnext⟩ := readNextChar_advances i
  rw [readNextChar_charPos, hencoding, hcodepage, ← h.rest]
  rcases hchar : nextChar i.encoding i.codepage i.rest with _ | ⟨ch, r⟩ <;> rw [hchar] at hnext
  · rw [hnext.1] at hhave
    cases hhave
  · rw [hnext.2.1, hnext.2.2]

theorem Standing.readNextChar (h : Standing data shift i) : Standing data shift i.readNextChar := h.place.standing

theorem setPos_standing (h : At data shift i) (pos : Nat) : Standing data 0 (i.setPos pos) := by
  have hat : At data 0 { i with stream := i.stream.setPos pos, bufferPos := pos, charPos := pos, buffer := [] } :=
    ⟨h.stream, by simp [rest, InternalStream.setPos, h.stream]⟩
  exact hat.standing

def markSize (data : Bytes) : Nat := (detect data).2

theorem detect_take (data : Bytes) : detect (data.take bufferSize) = detect data := by
  match data with
  | [] => rfl
  | [_] => rfl
  | p0 :: p1 :: rest =>
    have hhead : (rest.take (bufferSize - 2)).head? = rest.head? := by
      rw [List.head?_take, if_neg (by decide)]
    show detect (p0 :: p1 :: rest.take (bufferSize - 2)) = detect (p0 :: p1 :: rest)
    rw [detect, detect, hhead]

theorem detect_le (data : Bytes) : (detect data).2 ≤ data.length := by
  unfold detect
  split
  · rename_i p0 p1 rest
    split_ifs with h <;> simp
    obtain ⟨-, -, hrest⟩ := h
    exact List.length_pos_of_mem (List.mem_of_mem_head? hrest)
  · exact Nat.zero_le _

theorem start_standing (stream : InternalStream) :
    Standing stream.data (markSize (stream.data.drop stream.pos)) (start stream) := by
  let i : Input :=
    { stream := stream, buffer := [], bufferPos := stream.getPos, encoding := .utf8, codepage := none,
      haveCurrentCharacter := false, currentCharacter := 0, charPos := 0 }
  have hbuffer : i.refillBuffer.buffer = (stream.data.drop stream.pos).take bufferSize := rfl
  have hrest : i.refillBuffer.rest = stream.data.drop stream.pos := rest_refillBuffer rfl
  have hmark : (detect i.refillBuffer.buffer).2 = markSize (stream.data.drop stream.pos) := by
    rw [hbuffer, detect_take]
    rfl
  have hplace : At stream.data (markSize (stream.data.drop stream.pos)) i.refillBuffer.detectEncoding := by
    refine ⟨rfl, ?_⟩
    have hdrop : i.refillBuffer.detectEncoding.rest = i.refillBuffer.rest.drop (detect i.refillBuffer.buffer).2 :=
      (List.drop_append_of_le_length (detect_le _)).symm
    rw [hdrop, hrest, hmark, List.drop_drop]
    rfl
  exact hplace.standing

/-! ### The same bytes -/

/-- Two inputs with the same bytes before them, which they decode alike. -/
structure Alike (i j : Input) : Prop where
  rest : j.rest = i.rest
  encoding : j.encoding = i.encoding
  codepage : j.codepage = i.codepage
  haveCurrentCharacter : j.haveCurrentCharacter = i.haveCurrentCharacter
  currentCharacter : j.currentCharacter = i.currentCharacter

theorem Alike.symm (h : Alike i j) : Alike j i :=
  ⟨h.rest.symm, h.encoding.symm, h.codepage.symm, h.haveCurrentCharacter.symm, h.currentCharacter.symm⟩

theorem lockstep_alike : Lockstep Alike where
  current h := ⟨h.haveCurrentCharacter, h.currentCharacter⟩
  next := by
    intro i j h
    obtain ⟨hencoding, hcodepage, hi⟩ := readNextChar_advances i
    obtain ⟨hencoding', hcodepage', hj⟩ := readNextChar_advances j
    rw [h.encoding, h.codepage, h.rest] at hj
    have hdecoding : j.readNextChar.encoding = i.readNextChar.encoding ∧
        j.readNextChar.codepage = i.readNextChar.codepage := by
      rw [hencoding, hcodepage, hencoding', hcodepage', h.encoding, h.codepage]
      exact ⟨rfl, rfl⟩
    rcases hchar : nextChar i.encoding i.codepage i.rest with _ | ⟨ch, r⟩ <;> rw [hchar] at hi hj
    · obtain ⟨hhave, hcurrent, hrest⟩ := hi
      obtain ⟨hhave', hcurrent', hrest'⟩ := hj
      exact ⟨by rw [hrest, hrest'], hdecoding.1, hdecoding.2, by rw [hhave, hhave'],
        by rw [hcurrent, hcurrent', h.currentCharacter]⟩
    · obtain ⟨hhave, hcurrent, hrest⟩ := hi
      obtain ⟨hhave', hcurrent', hrest'⟩ := hj
      exact ⟨by rw [hrest, hrest'], hdecoding.1, hdecoding.2, by rw [hhave, hhave'], by rw [hcurrent, hcurrent']⟩

theorem declares_alike : Declares Alike where
  encoding h := h.encoding
  declare h _ _ := ⟨h.rest, rfl, rfl, h.haveCurrentCharacter, h.currentCharacter⟩

theorem setPos_alike {k : Input} (hi : Standing data 0 i) (hhave : i.haveCurrentCharacter = true)
    (hk : k.stream.data = data) (hencoding : k.encoding = i.encoding) (hcodepage : k.codepage = i.codepage) :
    Alike i (k.setPos i.charPos) := by
  let k' : Input := { k with stream := k.stream.setPos i.charPos, bufferPos := i.charPos, charPos := i.charPos, buffer := [] }
  have hrest : k'.rest = data.drop i.charPos := by simp [k', Input.rest, InternalStream.setPos, hk]
  obtain ⟨hencoding', hcodepage', hnext⟩ := readNextChar_advances k'
  have hchar : nextChar k'.encoding k'.codepage k'.rest = some (i.currentCharacter, i.rest) := by
    rw [hrest, show k'.encoding = i.encoding from hencoding, show k'.codepage = i.codepage from hcodepage]
    exact hi.current hhave
  rw [hchar] at hnext
  exact ⟨hnext.2.2, hencoding'.trans hencoding, hcodepage'.trans hcodepage, by rw [hhave]; exact hnext.1, hnext.2.1⟩

end Input

namespace Reader

open Input

variable {env : Environment} {data : Bytes} {shift fuel : Nat} {s s' : Reader} {t : Token}

/-! ### Readers -/

/-- Where a reader is in its document. Within a processing instruction the current character may have been decoded
before the encoding was declared. -/
structure Placed (data : Bytes) (shift : Nat) (s : Reader) : Prop where
  place : At data shift s.input
  standing : s.state ≠ .inPI → Standing data shift s.input

theorem Placed.of_standing (h : Standing data shift s.input) : Placed data shift s := ⟨h.place, fun _ => h⟩

theorem readNextToken_keeps {P : Input → Prop} (hP : ∀ {i}, P i → P i.readNextChar)
    (hD : s.state = .inPI → ∀ {i}, P i → ∀ encoding codepage, P { i with encoding := encoding, codepage := codepage })
    (hs : P s.input) (h : readNextToken env fuel s = some (t, s')) : P s'.input := by
  have hR : Lockstep fun i j => i = j ∧ P i := .of_closed hP
  have hdeclares : s.state = .inPI → Declares fun i j => i = j ∧ P i := by
    intro hstate
    refine ⟨?_, ?_⟩
    · rintro i _ ⟨rfl, -⟩
      rfl
    · rintro i _ ⟨rfl, hi⟩ encoding codepage
      exact ⟨rfl, hD hstate hi encoding codepage⟩
  have hself : Along (fun i j => i = j ∧ P i) s s := ⟨⟨rfl, hs⟩, rfl, rfl, fun _ => rfl⟩
  have htoken := readNextToken_lockstep env hR fuel hself hdeclares
  rw [h] at htoken
  cases htoken with
  | some hr => exact hr.reader.input.2

theorem readInPI_leaves (env : Environment) (s : Reader) :
    (readInPI env s).2.state = s.state ∨ (readInPI env s).2.input = skipTag (skip whitespaceChar s.input) := by
  unfold readInPI
  simp only
  split_ifs
  · exact .inl rfl
  · exact .inr rfl
  · exact .inl rfl
  · exact .inl rfl
  · exact .inl rfl

theorem readNextToken_placed (hs : Placed data shift s) (h : readNextToken env fuel s = some (t, s')) :
    Placed data shift s' := by
  by_cases hstate : s.state = .inPI
  · have hplace : At data shift s'.input :=
      readNextToken_keeps At.readNextChar (fun _ _ hi _ _ => ⟨hi.stream, hi.rest⟩) hs.place h
    refine ⟨hplace, fun hne => ?_⟩
    have hR : Lockstep fun i j => i = j ∧ At data shift i := .of_closed At.readNextChar
    have hskip : At data shift (skip (~~~gtChar) (skip whitespaceChar s.input)) :=
      (skip_lockstep hR _ (skip_lockstep hR _ ⟨rfl, hs.place⟩)).2
    simp only [readNextToken, hstate] at h
    split_ifs at h
    · cases h
      exact absurd hstate hne
    · have hread : readInPI env s.marked = (t, s') := Option.some.inj h
      rcases readInPI_leaves env s.marked with hsame | hinput <;> rw [hread] at *
      · exact absurd (hsame.trans hstate) hne
      · simp only at hinput
        rw [hinput]
        exact hskip.standing
  · exact .of_standing (readNextToken_keeps Standing.readNextChar (fun hpi => absurd hpi hstate)
      (hs.standing hstate) h)

theorem readNext_last (hs : Placed data shift s) (h : readNext env fuel s = some (t, s')) :
    ∃ fuel' r, Placed data shift r ∧ readNextToken env fuel' r = some (t, s') ∧ isIgnored t s' = false := by
  induction fuel generalizing s with
  | zero => cases h
  | succ fuel ih =>
    rw [readNext] at h
    split at h
    · cases h
    · next token r htoken =>
      split_ifs at h with hignored
      · exact ih (readNextToken_placed hs htoken) h
      · cases h
        exact ⟨fuel + 1, s, hs, htoken, by simpa using hignored⟩

theorem readNext_placed (hs : Placed data shift s) (h : readNext env fuel s = some (t, s')) : Placed data shift s' := by
  obtain ⟨fuel', r, hr, htoken, -⟩ := readNext_last hs h
  exact readNextToken_placed hr htoken

/-! ### Tokens to which a reader can go back -/

/-- The tokens whose position is usable. -/
def IsUsable (t : Token) : Prop := t = .tagStart ∨ t = .text

theorem readMarkup_usable (ht : IsUsable t) (h : readMarkup fuel s = some (t, s')) :
    s'.tagPos = s.tagPos ∧ s'.whitespaceMode = s.whitespaceMode ∧ ∀ fuel', readMarkup fuel' s = some (t, s') := by
  have hsection : ∀ {i}, readSection s i = (t, s') →
      s'.tagPos = s.tagPos ∧ s'.whitespaceMode = s.whitespaceMode := by
    intro i h
    simp only [readSection] at h
    split_ifs at h <;> cases h <;> exact ⟨rfl, rfl⟩
  unfold readMarkup readDeclaration at *
  simp only at h ⊢
  split_ifs at h ⊢
  · cases h
    rcases ht with ht | ht <;> cases ht
  · cases h
    rcases ht with ht | ht <;> cases ht
  · cases h
    rcases ht with ht | ht <;> cases ht
  · cases h
    rcases ht with ht | ht <;> cases ht
  · obtain ⟨hpos, hmode⟩ := hsection (Option.some.inj h)
    exact ⟨hpos, hmode, fun _ => h⟩
  · simp only [readComment] at h
    split at h <;> cases h
    rcases ht with ht | ht <;> cases ht
  · cases h
    rcases ht with ht | ht <;> cases ht
  · cases h
    exact ⟨rfl, rfl, fun _ => rfl⟩

/-- What can be said about a token whose position is usable. -/
structure Usable (env : Environment) (r : Reader) (t : Token) (s : Reader) : Prop where
  state : r.state = .main
  haveCurrentCharacter : r.input.haveCurrentCharacter = true
  getPos : s.getPos = r.input.charPos
  whitespaceMode : s.whitespaceMode = r.whitespaceMode
  encoding : s.input.encoding = r.input.encoding
  codepage : s.input.codepage = r.input.codepage
  returns : ∀ fuel, readNextToken env fuel r = some (t, s)

theorem not_isUsable_inTag (env : Environment) (s : Reader) : ¬IsUsable (readInTag env s).1 := by
  rintro (h | h) <;> simp only [readInTag] at h <;> split_ifs at h

theorem not_isUsable_inPI (env : Environment) (s : Reader) : ¬IsUsable (readInPI env s).1 := by
  rintro (h | h) <;> simp only [readInPI] at h <;> split_ifs at h

theorem readNextToken_usable (ht : IsUsable t) (h : readNextToken env fuel s = some (t, s')) : Usable env s t s' := by
  have hkeeps : s.state = .main → s'.input.encoding = s.input.encoding ∧ s'.input.codepage = s.input.codepage :=
    fun hstate => readNextToken_keeps (P := fun i => i.encoding = s.input.encoding ∧ i.codepage = s.input.codepage)
      (fun hi => ⟨(readNextChar_encoding _).trans hi.1, (readNextChar_codepage _).trans hi.2⟩)
      (fun hpi => by simp [hstate] at hpi) ⟨rfl, rfl⟩ h
  cases hahead : s.input.ahead with
  | nil =>
    rw [readNextToken_end hahead] at h
    cases h
    rcases ht with ht | ht <;> cases ht
  | cons ch cs =>
    have hhave := (ahead_eq_cons.mp hahead).1
    cases hstate : s.state with
    | main =>
      obtain ⟨hencoding, hcodepage⟩ := hkeeps hstate
      by_cases hch : ch = 60
      · subst hch
        rw [readNextToken_markup hstate hahead] at h
        obtain ⟨hpos, hmode, hfuel⟩ := readMarkup_usable ht h
        exact ⟨hstate, hhave, hpos, hmode, hencoding, hcodepage,
          fun fuel' => by rw [readNextToken_markup hstate hahead, hfuel]⟩
      · rw [readNextToken_text hstate hahead hch] at h
        refine ⟨hstate, hhave, ?_, ?_, hencoding, hcodepage,
          fun fuel' => by rw [readNextToken_text hstate hahead hch, h]⟩
        · cases h
          rfl
        · cases h
          rfl
    | inTag =>
      rw [readNextToken_inTag hstate hahead] at h
      have hread : readInTag env s.marked = (t, s') := Option.some.inj h
      exact absurd ht (by simpa [hread] using not_isUsable_inTag env s.marked)
    | inPI =>
      rw [readNextToken_inPI hstate hahead] at h
      have hread : readInPI env s.marked = (t, s') := Option.some.inj h
      exact absurd ht (by simpa [hread] using not_isUsable_inPI env s.marked)

/-! ### Going back -/

/-- What a user does with a reader. A call of `readNext` has fuel to return. -/
inductive Call
  | readNext (fuel : Nat)
  | setPos (pos : Nat)
  | setWhitespaceMode (mode : WhitespaceMode)

def call (env : Environment) (s : Reader) : Call → Option Reader
  | .readNext fuel => (readNext env fuel s).map Prod.snd
  | .setPos pos => some (s.setPos pos)
  | .setWhitespaceMode mode => some (s.setWhitespaceMode mode)

theorem final_placed {calls : List Call} (hs : Placed data shift s) (h : Run.final (call env) s calls = some s') :
    ∃ shift', Placed data shift' s' ∧ (shift = 0 ∨ (∃ pos, .setPos pos ∈ calls) → shift' = 0) := by
  induction calls generalizing s shift with
  | nil =>
    cases h
    exact ⟨shift, hs, fun h => h.resolve_right (by simp)⟩
  | cons c calls ih =>
    rw [Run.final] at h
    split at h
    · cases h
    · next r hr =>
      cases c with
      | readNext fuel =>
        obtain ⟨⟨t, r'⟩, hread, rfl⟩ := Option.map_eq_some_iff.mp hr
        obtain ⟨shift', hplaced, hzero⟩ := ih (readNext_placed hs hread) h
        refine ⟨shift', hplaced, fun hcount => hzero ?_⟩
        simpa using hcount
      | setPos pos =>
        cases hr
        have hnext : Placed data 0 (s.setPos pos) := .of_standing (setPos_standing hs.place pos)
        obtain ⟨shift', hplaced, hzero⟩ := ih hnext h
        exact ⟨shift', hplaced, fun _ => hzero (.inl rfl)⟩
      | setWhitespaceMode mode =>
        cases hr
        obtain ⟨shift', hplaced, hzero⟩ := ih (s := s.setWhitespaceMode mode) ⟨hs.place, hs.standing⟩ h
        refine ⟨shift', hplaced, fun hcount => hzero ?_⟩
        simpa using hcount

/-- A run of a reader over a document in which a token with a usable position is returned, and then some more calls are
made. -/
structure Revisit (env : Environment) (stream : InternalStream) where
  before : List Call
  fuel : Nat
  between : List Call
  start : Reader
  token : Token
  saved : Reader
  last : Reader
  reached : Run.final (call env) (new stream) before = some start
  returned : readNext env fuel start = some (token, saved)
  usable : IsUsable token
  continued : Run.final (call env) saved between = some last

namespace Revisit

variable {stream : InternalStream}

/-- The reader goes back: it returns the same token, and then the same tokens as after the first time. -/
def Resumes (v : Revisit env stream) : Prop :=
  ∀ fuel, ∃ s, (toBaseReader env (fuel + 1)).next (v.last.setPos v.saved.getPos) = some (item (v.token, v.saved), s) ∧
    ∀ fuel items, (∃ t, Emits (toBaseReader env fuel).next s items t) ↔
      ∃ t, Emits (toBaseReader env fuel).next v.saved items t

/-- The reader has counted the bytes before the token, and decodes characters and treats whitespace as it did then. -/
structure Faithful (v : Revisit env stream) : Prop where
  counted : markSize (stream.data.drop stream.pos) = 0 ∨ ∃ pos, .setPos pos ∈ v.before
  encoding : v.last.input.encoding = v.saved.input.encoding
  codepage : v.last.input.codepage = v.saved.input.codepage
  whitespaceMode : v.last.whitespaceMode = v.saved.whitespaceMode

end Revisit

theorem along_symm (h : Along Alike s s') : Along Alike s' s :=
  ⟨h.input.symm, h.mode.symm, h.state.symm, fun hne => (h.tag (by rwa [← h.state])).symm⟩

theorem next_eq_map (env : Environment) (fuel : Nat) (s : Reader) :
    (toBaseReader env fuel).next s = (readNext env fuel s).map fun r => (item r, r.2) := by
  unfold BaseReader.next toBaseReader
  simp only
  cases readNext env fuel s <;> rfl

theorem along_emits {items : List Item} {u : Reader} (hs : Along Alike s s')
    (h : Emits (toBaseReader env fuel).next s items u) : ∃ t, Emits (toBaseReader env fuel).next s' items t := by
  refine Emits.simulate (R := Along Alike) ?_ hs h
  intro s t a u hst hnext
  have hread := readNext_lockstep env lockstep_alike declares_alike fuel hst
  rw [next_eq_map] at hnext ⊢
  generalize readNext env fuel s = r at hread hnext
  generalize readNext env fuel t = r' at hread ⊢
  cases hread with
  | none => cases hnext
  | @some r r' hr =>
    cases hnext
    exact ⟨r'.2, by rw [Option.map_some, hr.item], hr.reader⟩

theorem next_of_along {r : Reader} (hr : Along Alike r s) (htoken : readNextToken env (fuel + 1) r = some (t, s'))
    (hignored : isIgnored t s' = false) :
    ∃ u, (toBaseReader env (fuel + 1)).next s = some (item (t, s'), u) ∧ Along Alike s' u := by
  have hread := readNextToken_lockstep env lockstep_alike (fuel + 1) hr fun _ => declares_alike
  rw [htoken] at hread
  generalize hs : readNextToken env (fuel + 1) s = q at hread
  cases hread with
  | @some _ q hq =>
    have hreported : isIgnored q.1 q.2 = false := by
      rw [isIgnored_eq_item, hq.item, ← isIgnored_eq_item, hignored]
    have hnext : readNext env (fuel + 1) s = some q := by
      rw [readNext, hs]
      simp only [hreported, Bool.false_eq_true, if_false]
    refine ⟨q.2, ?_, hq.reader⟩
    rw [next_eq_map, hnext, Option.map_some, hq.item]

/-- **Positions can be used to go back.** In every run, a reader that has counted the bytes before a token and decodes
as it did then goes back to the token and reads on as before. -/
theorem revisit_resumes {stream : InternalStream} (v : Revisit env stream) (hv : v.Faithful) : v.Resumes := by
  have hnew : Placed stream.data (markSize (stream.data.drop stream.pos)) (new stream) :=
    .of_standing (start_standing stream)
  obtain ⟨shift, hstart, hzero⟩ := final_placed hnew v.reached
  obtain rfl := hzero hv.counted
  obtain ⟨fuel', r, hr, htoken, hignored⟩ := readNext_last hstart v.returned
  have husable := readNextToken_usable v.usable htoken
  obtain ⟨_, hlast, -⟩ := final_placed (readNext_placed hstart v.returned) v.continued
  have hinput : Alike r.input (v.last.input.setPos r.input.charPos) :=
    setPos_alike (hr.standing (by simp [husable.state])) husable.haveCurrentCharacter hlast.place.stream
      (hv.encoding.trans husable.encoding) (hv.codepage.trans husable.codepage)
  have halong : Along Alike r (v.last.setPos v.saved.getPos) := by
    rw [husable.getPos]
    exact ⟨hinput, hv.whitespaceMode.trans husable.whitespaceMode, husable.state.symm,
      fun hne => absurd husable.state hne⟩
  intro fuel
  obtain ⟨s, hnext, hs⟩ := next_of_along halong (husable.returns (fuel + 1)) hignored
  refine ⟨s, hnext, fun fuel items => ⟨?_, ?_⟩⟩
  · rintro ⟨t, ht⟩
    exact along_emits (along_symm hs) ht
  · rintro ⟨t, ht⟩
    exact along_emits hs ht

theorem revisit_resumes_tag :
    ∃ v : Revisit ⟨DefaultEntityHandler.expandEntityReference, fun _ => none⟩ ⟨lit "<a><b>", 0⟩,
      v.between = [.readNext 2] ∧ v.Faithful ∧ v.Resumes := by
  let env : Environment := ⟨DefaultEntityHandler.expandEntityReference, fun _ => none⟩
  have hruns : ((readNext env 1 (new ⟨lit "<a><b>", 0⟩)).bind fun r =>
      (Run.final (call env) r.2 [.readNext 2]).map fun last =>
        (r.1, decide (last.input.encoding = r.2.input.encoding ∧ last.input.codepage.isNone ∧
          r.2.input.codepage.isNone ∧ last.whitespaceMode = r.2.whitespaceMode))) = some (.tagStart, true) := by
    decide +kernel
  obtain ⟨⟨t, saved⟩, hsaved, hlast⟩ := Option.bind_eq_some_iff.mp hruns
  obtain ⟨last, hlast, hsame⟩ := Option.map_eq_some_iff.mp hlast
  simp only [Prod.mk.injEq, decide_eq_true_eq, Option.isNone_iff_eq_none] at hsame
  obtain ⟨rfl, hencoding, hnone, hnone', hmode⟩ := hsame
  let v : Revisit env ⟨lit "<a><b>", 0⟩ :=
    ⟨[], 1, [.readNext 2], _, .tagStart, saved, last, rfl, hsaved, .inl rfl, hlast⟩
  have hv : v.Faithful := ⟨.inl (by decide), hencoding, hnone.trans hnone'.symm, hmode⟩
  exact ⟨v, rfl, hv, revisit_resumes v hv⟩

/-- The first token of a document, and the one that is read after going back to it. -/
def revisited (env : Environment) (stream : InternalStream) (between : List Call) : Option (Token × Item × Item) := do
  let r ← readNext env 1 (new stream)
  let last ← Run.final (call env) r.2 between
  let q ← readNext env 1 (last.setPos r.2.getPos)
  some (r.1, item r, item q)

theorem not_resumes_of_revisited {stream : InternalStream} {between : List Call} {a b : Item}
    (h : revisited env stream between = some (t, a, b)) (ht : IsUsable t) (hne : a ≠ b) :
    ¬∀ v : Revisit env stream, v.Resumes := by
  intro hall
  obtain ⟨⟨token, saved⟩, hsaved, h⟩ := Option.bind_eq_some_iff.mp h
  obtain ⟨last, hlast, h⟩ := Option.bind_eq_some_iff.mp h
  obtain ⟨q, hq, h⟩ := Option.bind_eq_some_iff.mp h
  cases h
  obtain ⟨s, hnext, -⟩ := hall ⟨[], 1, between, _, _, saved, last, rfl, hsaved, ht, hlast⟩ 0
  simp only [next_eq_map, hq, Option.map_some, Option.some.injEq, Prod.mk.injEq] at hnext
  exact hne hnext.1.symm

/-- A reader goes back to the first tag of a document and finds the byte order mark; another one goes back to a text and
reads it with the codepage that was declared after it. -/
theorem revisit_finds_mark :
    (¬∀ v : Revisit ⟨DefaultEntityHandler.expandEntityReference, fun _ => none⟩
        ⟨[0xEF, 0xBB, 0xBF] ++ lit "<a>", 0⟩, v.Resumes) ∧
      ¬∀ v : Revisit ⟨DefaultEntityHandler.expandEntityReference, fun _ => some ⟨fun i => 0x80 + UInt16.ofNat i⟩⟩
          ⟨[0xC3, 0xA9] ++ lit "<?xml encoding=l1?>", 0⟩, v.Resumes := by
  constructor
  · have h : revisited ⟨DefaultEntityHandler.expandEntityReference, fun _ => none⟩
        ⟨[0xEF, 0xBB, 0xBF] ++ lit "<a>", 0⟩ [] =
        some (.tagStart, .tagStart (lit "a"), .text [0xEF, 0xBB, 0xBF]) := by
      decide +kernel
    exact not_resumes_of_revisited h (.inl rfl) (by decide)
  · have h : revisited ⟨DefaultEntityHandler.expandEntityReference, fun _ => some ⟨fun i => 0x80 + UInt16.ofNat i⟩⟩
        ⟨[0xC3, 0xA9] ++ lit "<?xml encoding=l1?>", 0⟩ [.readNext 1, .readNext 1] =
        some (.text, .text [0xC3, 0xA9], .text [0xC3, 0x83, 0xC2, 0xA9]) := by
      decide +kernel
    exact not_resumes_of_revisited h (.inr rfl) (by decide)

end Reader

end Afl.Io.Xml
