import Afl.Lib.Pieces
import Afl.Net.Http.ClientResponse
import Afl.Net.Http.Message

/-!
# Headers in packets

What the parsers of requests, responses and header fields make of their input does not depend on how the network cuts it
into packets, and they stop exactly at the end of the header. `writeHeaders` of `afl/net/headertable.cpp` is what
`HeaderParser` reads.
-/

namespace Afl.Net

open Feed Pieces

/-! ### Header fields -/

theorem HeaderParser.handleData_cons {p : HeaderParser} (hp : p.state ≠ .final) (ch : UInt8) (bytes : Bytes) :
    p.handleData (ch :: bytes) = (p.step ch).handleData bytes := by
  rw [HeaderParser.handleData, if_neg hp]

theorem HeaderParser.handleData_final {p : HeaderParser} (hp : p.state = .final) (bytes : Bytes) :
    p.handleData bytes = (p, bytes) := by
  cases bytes with
  | nil => rfl
  | cons ch bytes => rw [HeaderParser.handleData, if_pos hp]

theorem HeaderParser.step_table (p : HeaderParser) (ch : UInt8) : p.table <+: (p.step ch).table := by
  have hflush : p.table <+: p.flush.table := List.prefix_append _ _
  have hblank : ∀ q : HeaderParser, q.table <+: (q.appendBlank ch).table := by
    intro q
    rw [appendBlank]
    split_ifs <;> exact List.prefix_refl _
  rw [step]
  split_ifs
  · exact List.prefix_refl _
  · exact List.prefix_refl _
  · rw [handleNewline]
    split
    all_goals first | exact List.prefix_refl _ | exact hflush
  · rw [handleBlank]
    split
    · exact List.prefix_refl _
    · exact List.prefix_refl _
    · exact hblank p
    · exact hblank { p with hasFolding := true, state := .value }
    · exact List.prefix_refl _
    · exact List.prefix_refl _
  · rw [handleColon]
    split
    all_goals first | exact List.prefix_refl _ | exact hflush
  · rw [handleOther]
    split
    all_goals first | exact List.prefix_refl _ | exact hflush

theorem HeaderParser.handleData_table (p : HeaderParser) (bytes : Bytes) : p.table <+: (p.handleData bytes).1.table := by
  induction bytes generalizing p with
  | nil => exact List.prefix_refl _
  | cons ch bytes ih =>
    rw [HeaderParser.handleData]
    split_ifs
    · exact List.prefix_refl _
    · exact (p.step_table ch).trans (ih _)

theorem HeaderParser.resumable : Resumable HeaderParser.handleData fun _ => True :=
  .of_symbols (F := fun p => p.state = .final) (fun _ => rfl) (fun _ hp => handleData_final hp)
    fun _ hp ch => ⟨_, trivial, .eaten (handleData_cons hp ch)⟩

namespace Http

/-! ### Written fields -/

theorem HeaderParser.handleData_of_run {p p' : HeaderParser} {bytes rest : Bytes} (hp : p.state ≠ .final)
    (h : run HeaderParser.feed p bytes = .done p' rest) : p.handleData bytes = (p', rest) := by
  induction bytes generalizing p with
  | nil => cases h
  | cons ch bytes ih =>
    rw [HeaderParser.handleData_cons hp]
    by_cases hfinal : (p.step ch).state = .final
    · rw [run_cons_done (v := p.step ch) (by rw [HeaderParser.feed, if_pos hfinal])] at h
      cases h
      exact HeaderParser.handleData_final hfinal _
    · have hnext : HeaderParser.feed p ch = .next (p.step ch) := by rw [HeaderParser.feed, if_neg hfinal]
      rw [run_cons_next hnext] at h
      exact ih hfinal h

/-- A field that can be written: its name is one, and its value does not start with a blank, which would get lost. -/
structure Writable (f : HeaderField) : Prop where
  name : f.name ≠ []
  nameBytes : ∀ c ∈ f.name, IsNameByte c
  valueBytes : ∀ c ∈ f.value, IsValueByte c
  blank : f.value.dropWhile isBlank = f.value

theorem Writable.line {f : HeaderField} (hf : Writable f) :
    ∃ l : HeaderLine, l.encode = f.name ++ [58, 32] ++ f.value ++ [13, 10] ∧ l.field = f ∧ l.folded = [] := by
  have hfirst : ∀ c ∈ 32 :: f.value, IsValueByte c := List.forall_mem_cons.mpr ⟨by decide, hf.valueBytes⟩
  refine ⟨⟨f.name, 32 :: f.value, [], hf.name, hf.nameBytes, hfirst, nofun⟩, ?_, ?_, rfl⟩
  · simp [HeaderLine.encode, HeaderLine.encodeFolded, crlf]
  · have hblank : isBlank 32 = true := by decide
    rw [HeaderLine.field, List.flatten_nil, List.append_nil, List.dropWhile_cons_of_pos hblank, hf.blank]

theorem writable_lines {table : HeaderTable} (htable : ∀ f ∈ table, Writable f) :
    ∃ lines : List HeaderLine, (lines.map HeaderLine.encode).flatten = table.writeHeaders ∧
      lines.map HeaderLine.field = table ∧ (lines.any fun l => l.folded ≠ []) = false := by
  induction table with
  | nil => exact ⟨[], rfl, rfl, rfl⟩
  | cons f table ih =>
    rw [List.forall_mem_cons] at htable
    obtain ⟨l, hencode, hfield, hfolded⟩ := htable.1.line
    obtain ⟨lines, hencodes, hfields, hnone⟩ := ih htable.2
    refine ⟨l :: lines, ?_, ?_, ?_⟩
    · rw [List.map_cons, List.flatten_cons, hencode, hencodes]
      rfl
    · rw [List.map_cons, hfield, hfields]
    · rw [List.any_cons, hnone, hfolded]
      rfl

theorem handleData_writeHeaders {table : HeaderTable} (htable : ∀ f ∈ table, Writable f) (body : Bytes) :
    HeaderParser.create.handleData (table.writeHeaders ++ crlf ++ body) = (⟨table, false, false, [], [], .final⟩, body) := by
  obtain ⟨lines, hencode, hfields, hfolded⟩ := writable_lines htable
  have hinitial : AtLine [] false HeaderParser.create := .initial
  obtain ⟨p, hadvance, hp⟩ := advance_lines lines hinitial
  rw [hencode] at hadvance
  rw [hfields, hfolded, List.nil_append, Bool.false_or] at hp
  refine HeaderParser.handleData_of_run (show HeaderState.initial ≠ .final by decide) ?_
  rw [List.append_assoc, run_of_advance (show advance HeaderParser.feed HeaderParser.create _ = _ from hadvance),
    run_append, hp.run_crlf]
  rfl

/-- **Header tables are read back.** However the packets are cut, the parser finds the fields in order, finds no error,
is complete exactly at the end of the blank line and leaves the body. -/
theorem writeHeaders_read_back {table : HeaderTable} (htable : ∀ f ∈ table, Writable f) :
    (∀ (body : Bytes) (pieces : List Bytes), pieces.flatten = table.writeHeaders ++ crlf ++ body →
      feed HeaderParser.handleData .create pieces = (⟨table, false, false, [], [], .final⟩, body)) ∧
      ∀ (later : Bytes) (pieces : List Bytes), pieces.flatten ++ later = table.writeHeaders ++ crlf → later ≠ [] →
        (feed HeaderParser.handleData .create pieces).1.state ≠ .final ∧
          (feed HeaderParser.handleData .create pieces).2 = [] := by
  have hwhole := handleData_writeHeaders htable []
  rw [List.append_nil] at hwhole
  constructor
  · intro body pieces hpieces
    rw [HeaderParser.resumable.feed_eq trivial, hpieces, handleData_writeHeaders htable]
  · intro later pieces hpieces hlater
    rw [HeaderParser.resumable.feed_eq trivial]
    rw [← hpieces, HeaderParser.resumable.append trivial] at hwhole
    obtain ⟨-, hrest⟩ := Prod.mk.inj hwhole
    rw [List.append_eq_nil_iff] at hrest
    refine ⟨fun hfinal => hlater ?_, hrest.1⟩
    rw [HeaderParser.handleData_final hfinal] at hrest
    exact hrest.2

theorem writeHeaders_read_back_cut :
    feed HeaderParser.handleData .create [lit "Host: a b\r", lit "\nX:", lit " \r\n\r\nbo", lit "dy"] =
      (⟨[⟨lit "Host", lit "a b"⟩, ⟨lit "X", []⟩], false, false, [], [], .final⟩, lit "body") := by
  have htable : ∀ f ∈ [HeaderField.mk (lit "Host") (lit "a b"), ⟨lit "X", []⟩], Writable f := by
    rw [List.forall_mem_cons, List.forall_mem_singleton]
    exact ⟨⟨by decide, by decide +kernel, by decide +kernel, by decide +kernel⟩, by decide, by decide +kernel, nofun, rfl⟩
  exact (writeHeaders_read_back htable).1 _ _ (by decide)

/-- A tab in front of a value is a blank for the parser. -/
theorem writeHeaders_drops_tab :
    HeaderParser.create.handleData (HeaderTable.writeHeaders [⟨lit "X", lit "\tv"⟩] ++ crlf) =
      (⟨[⟨lit "X", lit "v"⟩], false, false, [], [], .final⟩, []) := by
  decide

/-! ### Requests -/

variable {ch : UInt8}

namespace Request

theorem handleData_finished {r : Request} (hr : r.isFinished = true) (bytes : Bytes) : r.handleData bytes = (r, bytes) := by
  rw [handleData, turns, if_pos (by rw [hr, Bool.or_true])]
  rfl

theorem feed_done {r r' : Request} (h : feed r ch = .done r') : r'.state = .done := by
  unfold feed at h
  split at h
  all_goals simp only [Reaction.done.injEq, reduceCtorEq] at h
  · subst h; rfl
  · subst h; rfl
  · split_ifs at h
    cases h
    rfl

theorem feed_fail {r : Request} (hr : Live r) (h : feed r ch = .fail) : ch = 10 := by
  have hunfinished := hr.unfinished
  unfold feed at h
  split at h
  all_goals simp only [reduceCtorEq] at h
  · exact of_eq_newline ‹_›
  · exact of_eq_newline ‹_›
  · split_ifs at h
  · simp_all [isFinished]
  · simp_all [isFinished]

theorem resumable : Resumable handleData fun r => r.isFinished = true ∨ Live r := by
  refine .of_symbols (F := fun r => r.isFinished = true) ?_ (fun _ hr => handleData_finished hr) ?_
  · rintro r (hr | hr)
    · exact handleData_finished hr []
    · rw [handleData_eq_run hr]
      rfl
  · intro r hr hunfinished ch
    have hlive := hr.resolve_left hunfinished
    rcases hf : feed r ch with r' | r' | _
    · have hlive' := live_feed hlive hf
      refine ⟨r', .inr hlive', .eaten fun bytes => ?_⟩
      rw [handleData_eq_run hlive, handleData_eq_run hlive', run_cons_next hf]
    · have hfinished : r'.isFinished = true := by simp [isFinished, feed_done hf]
      refine ⟨r', .inl hfinished, .eaten fun bytes => ?_⟩
      rw [handleData_eq_run hlive, handleData_finished hfinished, run_cons_done hf]
      rfl
    · obtain rfl := feed_fail hlive hf
      refine ⟨{ r with state := .error }, .inl rfl, .refused rfl fun bytes => ?_⟩
      rw [handleData_eq_run hlive, run_cons_fail hf]
      rfl

end Request

/-! ### Responses -/

namespace ClientResponse

theorem handleData_complete {r : ClientResponse} (hr : r.isComplete = true) (data : Bytes) :
    r.handleData data = (r, data) := by
  have hstate : r.state = .finalSuccess ∨ r.state = .finalError := of_decide_eq_true hr
  rcases hstate with h | h <;> simp [handleData, inState, h]

def withParser (r : ClientResponse) (state : ResponseState) (p : HeaderParser) : ClientResponse :=
  { r with state := state, headerParser := p }

variable (r : ClientResponse) (state : ResponseState) (p : HeaderParser)

theorem withParser_handleContentLength (value : Bytes) :
    (r.withParser state p).handleContentLength value = (r.handleContentLength value).withParser state p := by
  rw [handleContentLength, handleContentLength]
  cases strToULong value <;> rfl

theorem withParser_handleContentRange (value : Bytes) :
    (r.withParser state p).handleContentRange value = (r.handleContentRange value).withParser state p := by
  rw [handleContentRange, handleContentRange]
  cases parseContentRange value <;> rfl

theorem withParser_handleConnection (value : Bytes) :
    (r.withParser state p).handleConnection value = (r.handleConnection value).withParser state p := by
  rw [handleConnection, handleConnection, apply_ite (ClientResponse.withParser · state p),
    apply_ite (ClientResponse.withParser · state p)]
  rfl

theorem withParser_handleContentEncoding (value : Bytes) :
    (r.withParser state p).handleContentEncoding value = (r.handleContentEncoding value).withParser state p := by
  rw [handleContentEncoding, handleContentEncoding, apply_ite (ClientResponse.withParser · state p),
    apply_ite (ClientResponse.withParser · state p), apply_ite (ClientResponse.withParser · state p)]
  rfl

theorem withParser_handleCookie (value : Bytes) :
    (r.withParser state p).handleCookie value = (r.handleCookie value).withParser state p := by
  rw [handleCookie, handleCookie]
  cases value.dropWhile _ with
  | nil => rfl
  | cons c rest =>
    simp only
    rw [apply_ite (ClientResponse.withParser · state p)]
    rfl

theorem withParser_handleHeader (f : HeaderField) : (r.withParser state p).handleHeader f = (r.handleHeader f).withParser state p := by
  rw [handleHeader, handleHeader]
  simp only [apply_ite (ClientResponse.withParser · state p), withParser_handleContentLength, withParser_handleContentRange,
    withParser_handleConnection, withParser_handleContentEncoding, withParser_handleCookie]
  rfl

theorem withParser_foldl (fields : HeaderTable) :
    fields.foldl handleHeader (r.withParser state p) = (fields.foldl handleHeader r).withParser state p := by
  induction fields generalizing r with
  | nil => rfl
  | cons f fields ih => rw [List.foldl_cons, List.foldl_cons, withParser_handleHeader, ih]

variable {r}

/-- The response is complete, or it is still being parsed. -/
def Live (r : ClientResponse) : Prop := r.isComplete = true ∨ r.headerParser.state ≠ .final

/-- The response once its parser is `p`: the consumer has got the fields the parser has added. -/
def parsed (r : ClientResponse) (p : HeaderParser) : ClientResponse :=
  (p.table.drop r.headerParser.table.length).foldl handleHeader (r.withParser r.state p)

/-- Complete the response when its parser is. -/
def close (r : ClientResponse) (p : HeaderParser) : ClientResponse :=
  if p.state = .final then { r with state := .finalSuccess } else r

theorem parsed_eq (r : ClientResponse) (p : HeaderParser) :
    r.parsed p = ((p.table.drop r.headerParser.table.length).foldl handleHeader r).withParser r.state p :=
  withParser_foldl r r.state p _

@[simp] theorem headerParser_parsed (r : ClientResponse) (p : HeaderParser) : (r.parsed p).headerParser = p := by
  rw [parsed_eq]
  rfl

@[simp] theorem state_parsed (r : ClientResponse) (p : HeaderParser) : (r.parsed p).state = r.state := by
  rw [parsed_eq]
  rfl

theorem parseHeader_eq (r : ClientResponse) (data : Bytes) :
    r.parseHeader data =
      ((r.parsed (r.headerParser.handleData data).1).close (r.headerParser.handleData data).1,
        (r.headerParser.handleData data).2) := rfl

theorem parsed_parsed {r : ClientResponse} {p q : HeaderParser} (hp : r.headerParser.table <+: p.table)
    (hq : p.table <+: q.table) : (r.parsed p).parsed q = r.parsed q := by
  obtain ⟨one, hone⟩ := hp
  obtain ⟨more, hmore⟩ := hq
  rw [parsed_eq, parsed_eq r q, headerParser_parsed, state_parsed, parsed_eq r p, withParser_foldl, ← hmore,
    List.drop_left, ← hone, List.append_assoc, List.drop_left, List.drop_left, List.foldl_append]
  rfl

theorem parseHeader_nil (hp : r.headerParser.state ≠ .final) : r.parseHeader [] = (r, []) := by
  have hsame : r.parsed r.headerParser = r := by
    rw [parsed, List.drop_length]
    rfl
  rw [parseHeader_eq, HeaderParser.handleData, hsame, close, if_neg hp]

def headerByte (r : ClientResponse) (ch : UInt8) : ClientResponse :=
  (r.parsed (r.headerParser.step ch)).close (r.headerParser.step ch)

theorem handleData_headerByte (hstate : r.state = .parseHeader) (hp : r.headerParser.state ≠ .final) (ch : UInt8) :
    (headerByte r ch).Live ∧ ∀ data, r.parseHeader (ch :: data) = (headerByte r ch).handleData data := by
  by_cases hfinal : (r.headerParser.step ch).state = .final
  · have hbyte : headerByte r ch = { r.parsed (r.headerParser.step ch) with state := .finalSuccess } := by
      rw [headerByte, close, if_pos hfinal]
    have hcomplete : (headerByte r ch).isComplete = true := by simp [hbyte, isComplete]
    refine ⟨.inl hcomplete, fun data => ?_⟩
    rw [handleData_complete hcomplete, parseHeader_eq, HeaderParser.handleData_cons hp,
      HeaderParser.handleData_final hfinal, headerByte]
  · have hbyte : headerByte r ch = r.parsed (r.headerParser.step ch) := by
      rw [headerByte, close, if_neg hfinal]
    refine ⟨.inr (by rw [hbyte, headerParser_parsed]; exact hfinal), fun data => ?_⟩
    have hgoes : (headerByte r ch).handleData data = (headerByte r ch).parseHeader data := by
      simp [handleData, inState, hbyte, hstate]
    rw [hgoes, parseHeader_eq, parseHeader_eq, hbyte, headerParser_parsed, HeaderParser.handleData_cons hp,
      parsed_parsed (r.headerParser.step_table ch) (HeaderParser.handleData_table _ data)]

/-! #### One byte of the status line -/

theorem handleData_failParse (r : ClientResponse) (data : Bytes) : r.failParse.handleData data = (r.failParse, data) :=
  handleData_complete (r := r.failParse) rfl data

theorem handleData_version_blank (hstate : r.state = .parseVersion) (hblank : ch = 32 ∨ ch = 9)
    (data : Bytes) : r.handleData (ch :: data) = handleData { r with state := .parseStatusCode } data := by
  simp [handleData, inState, hstate, parseVersion, hblank]

theorem handleData_version_char (hstate : r.state = .parseVersion) (hblank : ¬(ch = 32 ∨ ch = 9))
    (hok : 32 ≤ ch ∧ ch < 0x7F ∧ r.version.length < maxVersion) (data : Bytes) :
    r.handleData (ch :: data) = handleData { r with version := r.version ++ [ch] } data := by
  simp only [handleData, inState, hstate, parseVersion, if_neg hblank, if_pos hok, if_true]

theorem handleData_version_other (hstate : r.state = .parseVersion) (hblank : ¬(ch = 32 ∨ ch = 9))
    (hbad : ¬(32 ≤ ch ∧ ch < 0x7F ∧ r.version.length < maxVersion)) (data : Bytes) :
    r.handleData (ch :: data) = r.failParse.handleData data := by
  rw [handleData_failParse]
  simp [handleData, inState, hstate, parseVersion, hblank, hbad, failParse]

theorem handleData_statusCode_blank (hstate : r.state = .parseStatusCode) (hblank : ch = 32 ∨ ch = 9)
    (data : Bytes) : r.handleData (ch :: data) = handleData { r with state := .parseStatusPhrase } data := by
  simp [handleData, inState, hstate, parseStatusCode, hblank]

theorem handleData_statusCode_digit (hstate : r.state = .parseStatusCode) (hblank : ¬(ch = 32 ∨ ch = 9))
    (hok : charIsDigit ch = true) (data : Bytes) :
    r.handleData (ch :: data) = handleData { r with statusCode := 10 * r.statusCode + (ch - 48).toUInt32 } data := by
  simp [handleData, inState, hstate, parseStatusCode, hblank, hok]

theorem handleData_statusCode_other (hstate : r.state = .parseStatusCode) (hblank : ¬(ch = 32 ∨ ch = 9))
    (hbad : ¬charIsDigit ch = true) (data : Bytes) : r.handleData (ch :: data) = r.failParse.handleData data := by
  rw [handleData_failParse]
  simp [handleData, inState, hstate, parseStatusCode, hblank, hbad, failParse]

theorem handleData_statusPhrase_newline (hstate : r.state = .parseStatusPhrase) (data : Bytes) :
    r.handleData (10 :: data) = handleData { r with state := .parseHeader } data := by
  simp [handleData, inState, hstate, parseStatusPhrase]

theorem handleData_statusPhrase_char (hstate : r.state = .parseStatusPhrase) (hch : ch ≠ 10) :
    ∃ text, ∀ data, r.handleData (ch :: data) = handleData { r with statusPhrase := text } data := by
  by_cases hstored : ch ≠ 13 ∧ r.statusPhrase.length < maxPhrase
  · exact ⟨r.statusPhrase ++ [ch],
      fun data => by simp [handleData, inState, hstate, parseStatusPhrase, hch, hstored.1, hstored.2]⟩
  · refine ⟨r.statusPhrase, fun data => ?_⟩
    show r.handleData (ch :: data) = r.handleData data
    by_cases hreturn : ch = 13
    · simp [handleData, inState, hstate, parseStatusPhrase, hreturn]
    · have hfull : ¬r.statusPhrase.length < maxPhrase := fun h => hstored ⟨hreturn, h⟩
      simp [handleData, inState, hstate, parseStatusPhrase, hreturn, hch, hfull]

/-- A byte that is consumed, after which the response is still parsed or has failed. -/
def Eats (r : ClientResponse) (ch : UInt8) : Prop :=
  ∃ r' : ClientResponse, r'.Live ∧ ∀ data, r.handleData (ch :: data) = r'.handleData data

theorem live_failParse (r : ClientResponse) : r.failParse.Live := .inl rfl

theorem eats_version (hstate : r.state = .parseVersion) (hp : r.headerParser.state ≠ .final) (ch : UInt8) : r.Eats ch := by
  by_cases hblank : ch = 32 ∨ ch = 9
  · exact ⟨{ r with state := .parseStatusCode }, .inr hp, handleData_version_blank hstate hblank⟩
  · by_cases hok : 32 ≤ ch ∧ ch < 0x7F ∧ r.version.length < maxVersion
    · exact ⟨{ r with version := r.version ++ [ch] }, .inr hp, handleData_version_char hstate hblank hok⟩
    · exact ⟨r.failParse, live_failParse r, handleData_version_other hstate hblank hok⟩

theorem eats_statusCode (hstate : r.state = .parseStatusCode) (hp : r.headerParser.state ≠ .final) (ch : UInt8) :
    r.Eats ch := by
  by_cases hblank : ch = 32 ∨ ch = 9
  · exact ⟨{ r with state := .parseStatusPhrase }, .inr hp, handleData_statusCode_blank hstate hblank⟩
  · by_cases hok : charIsDigit ch = true
    · exact ⟨{ r with statusCode := 10 * r.statusCode + (ch - 48).toUInt32 }, .inr hp,
        handleData_statusCode_digit hstate hblank hok⟩
    · exact ⟨r.failParse, live_failParse r, handleData_statusCode_other hstate hblank hok⟩

theorem eats_statusPhrase (hstate : r.state = .parseStatusPhrase) (hp : r.headerParser.state ≠ .final) (ch : UInt8) :
    r.Eats ch := by
  by_cases hnewline : ch = 10
  · subst hnewline
    exact ⟨{ r with state := .parseHeader }, .inr hp, handleData_statusPhrase_newline hstate⟩
  · obtain ⟨text, hnext⟩ := handleData_statusPhrase_char hstate hnewline
    exact ⟨{ r with statusPhrase := text }, .inr hp, hnext⟩

theorem eats_header (hstate : r.state = .parseHeader) (hp : r.headerParser.state ≠ .final) (ch : UInt8) : r.Eats ch := by
  obtain ⟨hlive, hdata⟩ := handleData_headerByte hstate hp ch
  refine ⟨headerByte r ch, hlive, fun data => ?_⟩
  rw [← hdata]
  simp [handleData, inState, hstate]

theorem Live.eats (hr : r.Live) (hunfinished : ¬r.isComplete = true) (ch : UInt8) : r.Eats ch := by
  have hp := hr.resolve_left hunfinished
  rcases hstate : r.state
  · exact eats_version hstate hp ch
  · exact eats_statusCode hstate hp ch
  · exact eats_statusPhrase hstate hp ch
  · exact eats_header hstate hp ch
  · exact absurd (by simp [isComplete, hstate]) hunfinished
  · exact absurd (by simp [isComplete, hstate]) hunfinished

theorem handleData_nil (hr : r.Live) : r.handleData [] = (r, []) := by
  rcases hr with hr | hp
  · exact handleData_complete hr []
  · rcases hstate : r.state
    · simp [handleData, inState, hstate, parseVersion]
    · simp [handleData, inState, hstate, parseStatusCode]
    · simp [handleData, inState, hstate, parseStatusPhrase]
    · simp [handleData, inState, hstate, parseHeader_nil hp]
    · exact handleData_complete (by simp [isComplete, hstate]) []
    · exact handleData_complete (by simp [isComplete, hstate]) []

theorem resumable : Resumable handleData Live := by
  refine .of_symbols (F := fun r => r.isComplete = true) handleData_nil (fun _ hr => handleData_complete hr) ?_
  intro r hr hunfinished ch
  obtain ⟨r', hlive, hdata⟩ := hr.eats hunfinished ch
  exact ⟨r', hlive, .eaten hdata⟩

theorem handleData_incomplete {data : Bytes} (hr : r.Live) (hdata : (r.handleData data).1.isComplete = false) :
    (r.handleData data).2 = [] := by
  induction data generalizing r with
  | nil => rw [handleData_nil hr]
  | cons ch data ih =>
    by_cases hcomplete : r.isComplete = true
    · rw [handleData_complete hcomplete, hcomplete] at hdata
      cases hdata
    · obtain ⟨r', hlive, hnext⟩ := hr.eats hcomplete ch
      rw [hnext] at hdata ⊢
      exact ih hlive hdata

end ClientResponse

/-- **Packets do not matter.** Requests and responses are parsed alike, however their bytes are cut: the same fields,
errors and states, and the same bytes are left. -/
theorem parsing_ignores_packets (isHeadRequest : Bool) (pieces : List Bytes) :
    feed Request.handleData .create pieces = Request.create.handleData pieces.flatten ∧
      feed ClientResponse.handleData (.create isHeadRequest) pieces =
        (ClientResponse.create isHeadRequest).handleData pieces.flatten :=
  ⟨Request.resumable.feed_eq (.inr Request.live_create) pieces,
    ClientResponse.resumable.feed_eq (.inr (show HeaderState.initial ≠ .final by decide)) pieces⟩

end Http

end Afl.Net
