import Afl.Net.Http.ProtocolHandler

/-!
# Requests on the wire

The grammar of HTTP/1.x requests: request line, header lines (possibly folded), and a body that is absent, delimited
by `Content-Length`, or chunked. `request` is what a dispatcher should be given for it and `content` what the response should be given;
`head_run` and `body_decodes` say that the parsers find exactly these and exactly the ends.
-/

namespace Afl.Net.Http

open Feed

def crlf : Bytes := [13, 10]

def isBlank (c : UInt8) : Bool := c = 32 || c = 9

/-! ### Header lines -/

/-- A byte of a method, a path or a version. -/
def IsTokenByte (c : UInt8) : Prop := c ≠ 32 ∧ c ≠ 13 ∧ c ≠ 10

/-- A byte of a header name. -/
def IsNameByte (c : UInt8) : Prop := c ≠ 0 ∧ c ≠ 13 ∧ c ≠ 10 ∧ c ≠ 32 ∧ c ≠ 9 ∧ c ≠ 58

/-- A byte of a header value. -/
def IsValueByte (c : UInt8) : Prop := c ≠ 0 ∧ c ≠ 13 ∧ c ≠ 10

instance : DecidablePred IsTokenByte := fun c => inferInstanceAs (Decidable (c ≠ 32 ∧ c ≠ 13 ∧ c ≠ 10))

instance : DecidablePred IsNameByte := fun c =>
  inferInstanceAs (Decidable (c ≠ 0 ∧ c ≠ 13 ∧ c ≠ 10 ∧ c ≠ 32 ∧ c ≠ 9 ∧ c ≠ 58))

instance : DecidablePred IsValueByte := fun c => inferInstanceAs (Decidable (c ≠ 0 ∧ c ≠ 13 ∧ c ≠ 10))

/-- A header field: its name, what follows the colon, and the continuation lines. -/
structure HeaderLine where
  name : Bytes
  first : Bytes
  folded : List Bytes
  hname : name ≠ []
  hnameBytes : ∀ c ∈ name, IsNameByte c
  hfirst : ∀ c ∈ first, IsValueByte c
  hfolded : ∀ l ∈ folded, ∃ c rest, l = c :: rest ∧ isBlank c = true ∧ ∀ b ∈ rest, IsValueByte b

namespace HeaderLine

def encodeFolded (folded : List Bytes) : Bytes := (folded.map (· ++ crlf)).flatten

def encode (l : HeaderLine) : Bytes := l.name ++ [58] ++ l.first ++ crlf ++ encodeFolded l.folded

/-- The field a header line stands for: folds are removed, and so is blank space before the value. -/
def field (l : HeaderLine) : HeaderField := ⟨l.name, (l.first ++ l.folded.flatten).dropWhile isBlank⟩

end HeaderLine

/-! ### Bodies -/

def hexNumber (digits : Bytes) : Nat := digits.foldl (fun n c => 16 * n + (hexValue c).getD 0) 0

/-- A chunk extension: nothing, or a semicolon and anything but a line end. -/
def IsExtension (ext : Bytes) : Prop := ext = [] ∨ ∃ rest, ext = 59 :: rest ∧ ∀ c ∈ rest, c ≠ 13 ∧ c ≠ 10

/-- A chunk with the spelling of its size. -/
structure Chunk where
  size : Bytes
  extension : Bytes
  data : Bytes
  hdigits : ∀ c ∈ size, hexValue c ≠ none
  hsize : hexNumber size = data.length
  hextension : IsExtension extension
  hdata : data ≠ []
  hlength : data.length < 2 ^ 64

def Chunk.encode (c : Chunk) : Bytes := c.size ++ c.extension ++ crlf ++ c.data ++ crlf

/-- The last chunk and the trailer. -/
structure Trailer where
  size : Bytes
  extension : Bytes
  lines : List Bytes
  hsize : ∀ c ∈ size, c = 48
  hnonempty : size ≠ []
  hextension : IsExtension extension
  hlines : ∀ l ∈ lines, l ≠ [] ∧ ∀ c ∈ l, c ≠ 13 ∧ c ≠ 10

def Trailer.encode (t : Trailer) : Bytes :=
  t.size ++ t.extension ++ crlf ++ (t.lines.map (· ++ crlf)).flatten ++ crlf

/-- A request body. -/
inductive Body
  | none
  | length (content : Bytes)
  | chunked (chunks : List Chunk) (trailer : Trailer)

namespace Body

def encode : Body → Bytes
  | none => []
  | length content => content
  | chunked chunks trailer => (chunks.map Chunk.encode).flatten ++ trailer.encode

def content : Body → Bytes
  | none => []
  | length content => content
  | chunked chunks _ => (chunks.map Chunk.data).flatten

/-- The header fields that announce a body: there is no `Transfer-Encoding`, or it is exactly `chunked`. -/
def AnnouncedBy (fields : HeaderTable) : Body → Prop
  | none =>
    HeaderTable.get fields (lit "Transfer-Encoding") = Option.none ∧
      HeaderTable.get fields (lit "Content-Length") = Option.none
  | length content =>
    HeaderTable.get fields (lit "Transfer-Encoding") = Option.none ∧
      ∃ f, HeaderTable.get fields (lit "Content-Length") = some f ∧
        strToULong f.getPrimaryValue = some content.length
  | chunked _ _ =>
    ∃ f, HeaderTable.get fields (lit "Transfer-Encoding") = some f ∧ f.getPrimaryValue = lit "chunked"

end Body

/-! ### Messages -/

/-- A well-formed HTTP/1.x request. -/
structure Message where
  method : Bytes
  path : Bytes
  minor : Bytes
  lines : List HeaderLine
  body : Body
  hmethod : method ≠ []
  hmethodBytes : ∀ c ∈ method, IsTokenByte c
  hpath : path ≠ []
  hpathBytes : ∀ c ∈ path, IsTokenByte c
  hminor : minor ≠ []
  hminorBytes : ∀ c ∈ minor, charIsDigit c = true
  hbody : body.AnnouncedBy (lines.map HeaderLine.field)

namespace Message

def version (m : Message) : Bytes := lit "HTTP/1." ++ m.minor

/-- The header block: request line, header lines and a blank line. -/
def head (m : Message) : Bytes :=
  m.method ++ [32] ++ m.path ++ [32] ++ m.version ++ crlf ++ (m.lines.map HeaderLine.encode).flatten ++ crlf

def encode (m : Message) : Bytes := m.head ++ m.body.encode

def request (m : Message) : Request :=
  ⟨m.method, m.path, m.version,
    ⟨m.lines.map HeaderLine.field, false, m.lines.any fun l => l.folded ≠ [], [], [], .final⟩, .done⟩

end Message

def encodeAll (msgs : List Message) : Bytes := (msgs.map Message.encode).flatten

/-! ### Header lines are parsed -/

def HeaderParser.feed (p : HeaderParser) (ch : UInt8) : Reaction HeaderParser HeaderParser :=
  if (p.step ch).state = .final then .done (p.step ch) else .next (p.step ch)

/-- The value after more bytes: blanks count only behind something else. -/
def addValue (value bytes : Bytes) : Bytes := if value = [] then bytes.dropWhile isBlank else value ++ bytes

theorem addValue_append (value a b : Bytes) : addValue (addValue value a) b = addValue value (a ++ b) := by
  unfold addValue
  rcases eq_or_ne value [] with rfl | hv
  · simp only [if_true, List.dropWhile_append, List.isEmpty_iff]
  · simp [hv]

theorem addValue_nil (value : Bytes) : addValue value [] = value := by
  unfold addValue
  split_ifs with h
  · simp [h]
  · simp

variable {table : HeaderTable} {folding : Bool}

theorem feed_value {key value : Bytes} {c : UInt8} (hc : IsValueByte c) :
    HeaderParser.feed ⟨table, false, folding, key, value, .value⟩ c =
      .next ⟨table, false, folding, key, addValue value [c], .value⟩ := by
  obtain ⟨h0, h13, h10⟩ := hc
  by_cases hblank : c = 32 ∨ c = 9
  · have hb : isBlank c = true := by simpa [isBlank] using hblank
    rcases eq_or_ne value [] with rfl | hv
    · simp [HeaderParser.feed, HeaderParser.step, HeaderParser.handleBlank, HeaderParser.appendBlank, addValue, h0, h13,
        h10, hblank, hb]
    · simp [HeaderParser.feed, HeaderParser.step, HeaderParser.handleBlank, HeaderParser.appendBlank, addValue, h0, h13,
        h10, hblank, hv]
  · have hb : isBlank c = false := by simpa [isBlank] using hblank
    have happend : addValue value [c] = value ++ [c] := by
      unfold addValue
      split_ifs with hv
      · simp [hv, hb]
      · rfl
    rw [happend]
    by_cases hcolon : c = 58
    · simp [HeaderParser.feed, HeaderParser.step, HeaderParser.handleColon, hcolon]
    · simp [HeaderParser.feed, HeaderParser.step, HeaderParser.handleOther, h0, h13, h10, hblank, hcolon]

theorem advance_value {key value bytes : Bytes} (hbytes : ∀ c ∈ bytes, IsValueByte c) :
    advance HeaderParser.feed ⟨table, false, folding, key, value, .value⟩ bytes =
      some ⟨table, false, folding, key, addValue value bytes, .value⟩ := by
  induction bytes generalizing value with
  | nil => rw [addValue_nil]; rfl
  | cons c bytes ih =>
    rw [advance_cons_next (feed_value (hbytes c (by simp))), ih fun b hb => hbytes b (by simp [hb]), addValue_append,
      List.singleton_append]

theorem advance_crlf {key value : Bytes} :
    advance HeaderParser.feed ⟨table, false, folding, key, value, .value⟩ crlf =
      some ⟨table, false, folding, key, value, .newline⟩ := rfl

theorem advance_name {key bytes : Bytes} (hbytes : ∀ c ∈ bytes, IsNameByte c) :
    advance HeaderParser.feed ⟨table, false, folding, key, [], .key⟩ bytes =
      some ⟨table, false, folding, key ++ bytes, [], .key⟩ := by
  induction bytes generalizing key with
  | nil => simp [advance]
  | cons c bytes ih =>
    obtain ⟨h0, h13, h10, h32, h9, h58⟩ := hbytes c (by simp)
    have hfeed : HeaderParser.feed ⟨table, false, folding, key, [], .key⟩ c =
        .next ⟨table, false, folding, key ++ [c], [], .key⟩ := by
      simp [HeaderParser.feed, HeaderParser.step, HeaderParser.handleOther, h0, h13, h10, h32, h9, h58]
    rw [advance_cons_next hfeed, ih fun b hb => hbytes b (by simp [hb])]
    simp

/-- The parser before a header line: `table` holds all fields so far, the last of them perhaps not flushed. -/
inductive AtLine (table : HeaderTable) (folding : Bool) : HeaderParser → Prop
  | initial : AtLine table folding ⟨table, false, folding, [], [], .initial⟩
  | newline {table' : HeaderTable} {key value : Bytes} (htable : table = table' ++ [⟨key, value⟩]) :
      AtLine table folding ⟨table', false, folding, key, value, .newline⟩

theorem AtLine.feed_name {p : HeaderParser} (hp : AtLine table folding p) {c : UInt8} (hc : IsNameByte c) :
    HeaderParser.feed p c = .next ⟨table, false, folding, [c], [], .key⟩ := by
  obtain ⟨h0, h13, h10, h32, h9, h58⟩ := hc
  cases hp with
  | initial => simp [HeaderParser.feed, HeaderParser.step, HeaderParser.handleOther, h0, h13, h10, h32, h9, h58]
  | newline htable =>
    simp [HeaderParser.feed, HeaderParser.step, HeaderParser.handleOther, HeaderParser.flush, h0, h13, h10, h32, h9, h58,
      htable]

theorem AtLine.run_crlf {p : HeaderParser} (hp : AtLine table folding p) :
    run HeaderParser.feed p crlf = .done ⟨table, false, folding, [], [], .final⟩ [] := by
  cases hp with
  | initial => rfl
  | newline htable => rw [htable]; rfl

theorem advance_folded {key value : Bytes} {folded : List Bytes}
    (hfolded : ∀ l ∈ folded, ∃ c rest, l = c :: rest ∧ isBlank c = true ∧ ∀ b ∈ rest, IsValueByte b) :
    advance HeaderParser.feed ⟨table, false, folding, key, value, .newline⟩ (HeaderLine.encodeFolded folded) =
      some ⟨table, false, folding || folded ≠ [], key, addValue value folded.flatten, .newline⟩ := by
  induction folded generalizing value folding with
  | nil => simp [HeaderLine.encodeFolded, advance, addValue_nil]
  | cons l folded ih =>
    obtain ⟨c, rest, rfl, hblank, hrest⟩ := hfolded l (by simp)
    have hc : c = 32 ∨ c = 9 := by simpa [isBlank] using hblank
    have hfeed : HeaderParser.feed ⟨table, false, folding, key, value, .newline⟩ c =
        .next ⟨table, false, true, key, addValue value [c], .value⟩ := by
      rcases eq_or_ne value [] with rfl | hv
      · rcases hc with rfl | rfl <;> rfl
      · rcases hc with rfl | rfl <;>
          simp [HeaderParser.feed, HeaderParser.step, HeaderParser.handleBlank, HeaderParser.appendBlank, addValue, hv]
    have hencode : HeaderLine.encodeFolded ((c :: rest) :: folded) =
        c :: (rest ++ (crlf ++ HeaderLine.encodeFolded folded)) := by
      simp [HeaderLine.encodeFolded]
    rw [hencode, advance_cons_next hfeed, advance_append (advance_value hrest), advance_append advance_crlf,
      ih fun l hl => hfolded l (by simp [hl])]
    simp [addValue_append]

theorem HeaderLine.advance_encode (l : HeaderLine) {p : HeaderParser} (hp : AtLine table folding p) :
    ∃ p', advance HeaderParser.feed p l.encode = some p' ∧
      AtLine (table ++ [l.field]) (folding || l.folded ≠ []) p' := by
  obtain ⟨c, rest, hname⟩ := List.exists_cons_of_ne_nil l.hname
  have hbytes := l.hnameBytes
  rw [hname, List.forall_mem_cons] at hbytes
  have hencode : l.encode = c :: (rest ++ (58 :: (l.first ++ (crlf ++ encodeFolded l.folded)))) := by
    simp [encode, hname]
  have hcolon : HeaderParser.feed ⟨table, false, folding, [c] ++ rest, [], .key⟩ 58 =
      .next ⟨table, false, folding, [c] ++ rest, [], .value⟩ := rfl
  refine ⟨⟨table, false, folding || l.folded ≠ [], l.name, addValue (addValue [] l.first) l.folded.flatten, .newline⟩,
    ?_, .newline ?_⟩
  · rw [hencode, advance_cons_next (hp.feed_name hbytes.1), advance_append (advance_name hbytes.2),
      advance_cons_next hcolon, advance_append (advance_value l.hfirst), advance_append advance_crlf,
      advance_folded l.hfolded, hname]
    rfl
  · rw [addValue_append]
    rfl

theorem advance_lines (lines : List HeaderLine) {p : HeaderParser} (hp : AtLine table folding p) :
    ∃ p', advance HeaderParser.feed p (lines.map HeaderLine.encode).flatten = some p' ∧
      AtLine (table ++ lines.map HeaderLine.field) (folding || lines.any fun l => l.folded ≠ []) p' := by
  induction lines generalizing p table folding with
  | nil => exact ⟨p, rfl, by simpa using hp⟩
  | cons l lines ih =>
    obtain ⟨p', hadv, hp'⟩ := l.advance_encode hp
    obtain ⟨p'', hadv', hp''⟩ := ih hp'
    refine ⟨p'', ?_, ?_⟩
    · rw [List.map_cons, List.flatten_cons, advance_append hadv, hadv']
    · simpa [Bool.or_assoc] using hp''

/-! ### Heads are parsed -/

theorem advance_header {r : Request} (hstate : r.state = .header) {p p' : HeaderParser} {bytes : Bytes}
    (h : advance HeaderParser.feed p bytes = some p') :
    advance Request.feed { r with headerParser := p } bytes = some { r with headerParser := p' } := by
  induction bytes generalizing p with
  | nil => cases h; rfl
  | cons c bytes ih =>
    rw [advance] at h
    rcases hf : HeaderParser.feed p c with q | q | _ <;> rw [hf] at h
    · unfold HeaderParser.feed at hf
      split_ifs at hf with hfinal
      cases hf
      have hfeed : Request.feed { r with headerParser := p } c = .next { r with headerParser := p.step c } := by
        simp [Request.feed, hstate, hfinal]
      rw [advance_cons_next hfeed]
      exact ih h
    · cases h
    · cases h

theorem run_header {r : Request} (hstate : r.state = .header) {p p' : HeaderParser} {bytes rest : Bytes}
    (h : run HeaderParser.feed p bytes = .done p' rest) :
    run Request.feed { r with headerParser := p } bytes =
      .done { r with headerParser := p', state := .done } rest := by
  induction bytes generalizing p with
  | nil => cases h
  | cons c bytes ih =>
    rcases hf : HeaderParser.feed p c with q | q | _
    · rw [run_cons_next hf] at h
      unfold HeaderParser.feed at hf
      split_ifs at hf with hfinal
      cases hf
      have hfeed : Request.feed { r with headerParser := p } c = .next { r with headerParser := p.step c } := by
        simp [Request.feed, hstate, hfinal]
      rw [run_cons_next hfeed]
      exact ih h
    · rw [run_cons_done hf] at h
      cases h
      unfold HeaderParser.feed at hf
      split_ifs at hf with hfinal
      cases hf
      exact run_cons_done (by simp [Request.feed, hstate, hfinal])
    · unfold HeaderParser.feed at hf
      split_ifs at hf

theorem CharClass.of_tokenByte {c : UInt8} (hc : IsTokenByte c) : CharClass.of c = .other := by
  obtain ⟨h32, h13, h10⟩ := hc
  simp [CharClass.of, h32, h13, h10]

theorem advance_token {g : Bytes → Request}
    (hstep : ∀ s c, CharClass.of c = .other → Request.feed (g s) c = .next (g (s ++ [c]))) (save : Bytes) {bytes : Bytes}
    (hbytes : ∀ c ∈ bytes, IsTokenByte c) : advance Request.feed (g save) bytes = some (g (save ++ bytes)) := by
  induction bytes generalizing save with
  | nil => simp [advance]
  | cons c bytes ih =>
    rw [List.forall_mem_cons] at hbytes
    rw [advance_cons_next (hstep save c (CharClass.of_tokenByte hbytes.1)), ih (save ++ [c]) hbytes.2, List.append_assoc,
      List.singleton_append]

theorem advance_nextToken {r : Request} {g : Bytes → Request} {bytes : Bytes}
    (hfirst : ∀ c, CharClass.of c = .other → Request.feed r c = .next (g [c]))
    (hstep : ∀ s c, CharClass.of c = .other → Request.feed (g s) c = .next (g (s ++ [c]))) (hne : bytes ≠ [])
    (hbytes : ∀ c ∈ bytes, IsTokenByte c) : advance Request.feed r bytes = some (g bytes) := by
  obtain ⟨c, rest, rfl⟩ := List.exists_cons_of_ne_nil hne
  rw [List.forall_mem_cons] at hbytes
  rw [advance_cons_next (hfirst c (CharClass.of_tokenByte hbytes.1)), advance_token hstep [c] hbytes.2, List.singleton_append]

namespace Message

theorem version_tokenBytes (m : Message) : ∀ c ∈ m.version, IsTokenByte c := by
  intro c hc
  rw [version, List.mem_append] at hc
  rcases hc with hc | hc
  · have hall : ∀ c ∈ lit "HTTP/1.", c ≠ 32 ∧ c ≠ 13 ∧ c ≠ 10 := List.forall_iff_forall_mem.mp (by decide)
    exact hall c hc
  · have hdigit := m.hminorBytes c hc
    simp only [charIsDigit, Bool.and_eq_true, decide_eq_true_eq] at hdigit
    refine ⟨?_, ?_, ?_⟩ <;> rintro rfl <;> revert hdigit <;> decide

theorem version_ne_nil (m : Message) : m.version ≠ [] := by simp [version, lit]

theorem advance_requestLine (m : Message) :
    advance Request.feed .create (m.method ++ ([32] ++ (m.path ++ ([32] ++ m.version)))) =
      some ⟨m.method, m.path, m.version, .create, .version⟩ := by
  have hmethod : advance Request.feed .create m.method = some ⟨m.method, [], [], .create, .method⟩ :=
    advance_token (g := fun s => ⟨s, [], [], .create, .method⟩) (fun s c hc => by simp [Request.feed, hc]) []
      m.hmethodBytes
  have hpath : advance Request.feed ⟨m.method, [], [], .create, .methodSp⟩ m.path =
      some ⟨m.method, m.path, [], .create, .path⟩ :=
    advance_nextToken (g := fun s => ⟨m.method, s, [], .create, .path⟩) (fun c hc => by simp [Request.feed, hc])
      (fun s c hc => by simp [Request.feed, hc]) m.hpath m.hpathBytes
  have hversion : advance Request.feed ⟨m.method, m.path, [], .create, .pathSp⟩ m.version =
      some ⟨m.method, m.path, m.version, .create, .version⟩ :=
    advance_nextToken (g := fun s => ⟨m.method, m.path, s, .create, .version⟩)
      (fun c hc => by simp [Request.feed, hc]) (fun s c hc => by simp [Request.feed, hc]) m.version_ne_nil
      m.version_tokenBytes
  have hblank : advance Request.feed ⟨m.method, [], [], .create, .method⟩ [32] =
      some ⟨m.method, [], [], .create, .methodSp⟩ := rfl
  have hblank' : advance Request.feed ⟨m.method, m.path, [], .create, .path⟩ [32] =
      some ⟨m.method, m.path, [], .create, .pathSp⟩ := rfl
  rw [advance_append hmethod, advance_append hblank, advance_append hpath, advance_append hblank', hversion]

/-- **A head is parsed exactly**: it makes the request it stands for, and nothing of what follows is consumed. -/
theorem head_run (m : Message) : run Request.feed .create m.head = .done m.request [] := by
  have hhead : m.head = (m.method ++ ([32] ++ (m.path ++ ([32] ++ m.version)))) ++
      (crlf ++ ((m.lines.map HeaderLine.encode).flatten ++ crlf)) := by
    simp [head]
  have hcrlf : advance Request.feed ⟨m.method, m.path, m.version, .create, .version⟩ crlf =
      some ⟨m.method, m.path, m.version, .create, .header⟩ := rfl
  have hinit : AtLine [] false HeaderParser.create := .initial
  obtain ⟨p, hadvance, hp⟩ := advance_lines m.lines hinit
  have hlines : advance Request.feed ⟨m.method, m.path, m.version, .create, .header⟩
      (m.lines.map HeaderLine.encode).flatten = some ⟨m.method, m.path, m.version, p, .header⟩ :=
    advance_header (r := ⟨m.method, m.path, m.version, .create, .header⟩) rfl hadvance
  have hend : run Request.feed ⟨m.method, m.path, m.version, p, .header⟩ crlf = .done m.request [] :=
    run_header (r := ⟨m.method, m.path, m.version, .create, .header⟩) rfl hp.run_crlf
  rw [hhead, run_of_advance m.advance_requestLine, run_of_advance hcrlf, run_of_advance hlines, hend]

theorem request_isFinished (m : Message) : m.request.isFinished = true := rfl

end Message

/-! ### Bodies are decoded -/

namespace ChunkedSink

theorem advance_digits {digits : Bytes} (hdigits : ∀ c ∈ digits, hexValue c ≠ none) (n : Nat) (out : Bytes) :
    advance feed (⟨.chunkSize, n % 2 ^ 64⟩, out) digits =
      some (⟨.chunkSize, digits.foldl (fun n c => 16 * n + (hexValue c).getD 0) n % 2 ^ 64⟩, out) := by
  induction digits generalizing n with
  | nil => rfl
  | cons c digits ih =>
    rw [List.forall_mem_cons] at hdigits
    obtain ⟨v, hv⟩ := Option.ne_none_iff_exists'.mp hdigits.1
    have hmod : addDigit (n % 2 ^ 64) v = (16 * n + v) % 2 ^ 64 := by
      unfold addDigit
      omega
    have hfeed : feed (⟨.chunkSize, n % 2 ^ 64⟩, out) c = .next (⟨.chunkSize, (16 * n + v) % 2 ^ 64⟩, out) := by
      simp only [feed, hv]
      rw [hmod]
    rw [advance_cons_next hfeed, ih hdigits.2, List.foldl_cons, hv, Option.getD_some]

theorem advance_skip {t : ChunkedSink × Bytes} {bytes : Bytes} (h : ∀ c ∈ bytes, feed t c = .next t) :
    advance feed t bytes = some t := by
  induction bytes with
  | nil => rfl
  | cons c bytes ih =>
    rw [List.forall_mem_cons] at h
    rw [advance_cons_next h.1]
    exact ih h.2

theorem advance_sizeLine {ext : Bytes} (hext : IsExtension ext) (size : Nat) (out : Bytes) :
    advance feed (⟨.chunkSize, size⟩, out) (ext ++ crlf) = some (afterSize size, out) := by
  rcases hext with rfl | ⟨rest, rfl, hrest⟩
  · rfl
  · have hskip : advance feed (⟨.extension, size⟩, out) rest = some (⟨.extension, size⟩, out) :=
      advance_skip fun c hc => by simp [feed, (hrest c hc).2]
    have hsemicolon : feed (⟨.chunkSize, size⟩, out) 59 = .next (⟨.extension, size⟩, out) := rfl
    rw [List.cons_append, advance_cons_next hsemicolon, advance_append hskip]
    rfl

theorem advance_payload {data : Bytes} (hdata : data ≠ []) (out : Bytes) :
    advance feed (⟨.payload, data.length⟩, out) data = some (⟨.payloadEnd, 0⟩, out ++ data) := by
  induction data generalizing out with
  | nil => exact absurd rfl hdata
  | cons c data ih =>
    have hfeed : feed (⟨.payload, (c :: data).length⟩, out) c = .next (afterPayload data.length, out ++ [c]) := rfl
    rw [advance_cons_next hfeed]
    rcases eq_or_ne data [] with rfl | hne
    · rfl
    · have hpos := List.length_pos_of_ne_nil hne
      have hstate : afterPayload data.length = ⟨.payload, data.length⟩ := by simp [afterPayload, hpos.ne']
      rw [hstate, ih hne, List.append_assoc, List.singleton_append]

theorem advance_chunk (c : Chunk) (out : Bytes) :
    advance feed (.create, out) c.encode = some (.create, out ++ c.data) := by
  have hencode : c.encode = c.size ++ ((c.extension ++ crlf) ++ (c.data ++ crlf)) := by simp [Chunk.encode]
  have hsize : advance feed (.create, out) c.size = some (⟨.chunkSize, c.data.length⟩, out) := by
    have h := advance_digits c.hdigits 0 out
    rw [← hexNumber, c.hsize, Nat.mod_eq_of_lt c.hlength] at h
    exact h
  have hpos := List.length_pos_of_ne_nil c.hdata
  have hafter : afterSize c.data.length = ⟨.payload, c.data.length⟩ := by simp [afterSize, hpos.ne']
  rw [hencode, advance_append hsize, advance_append (advance_sizeLine c.hextension _ out), hafter,
    advance_append (advance_payload c.hdata out)]
  rfl

theorem advance_chunks (chunks : List Chunk) (out : Bytes) :
    advance feed (.create, out) (chunks.map Chunk.encode).flatten =
      some (.create, out ++ (chunks.map Chunk.data).flatten) := by
  induction chunks generalizing out with
  | nil => simp [advance]
  | cons c chunks ih =>
    rw [List.map_cons, List.flatten_cons, advance_append (advance_chunk c out), ih]
    simp

theorem advance_trailerLine {line : Bytes} (hne : line ≠ []) (hline : ∀ c ∈ line, c ≠ 13 ∧ c ≠ 10) (out : Bytes) :
    advance feed (⟨.trailer, 0⟩, out) (line ++ crlf) = some (⟨.trailer, 0⟩, out) := by
  obtain ⟨c, rest, rfl⟩ := List.exists_cons_of_ne_nil hne
  rw [List.forall_mem_cons] at hline
  have hfirst : feed (⟨.trailer, 0⟩, out) c = .next (⟨.trailerHeader, 0⟩, out) := by
    simp [feed, hline.1.1, hline.1.2]
  have hskip : advance feed (⟨.trailerHeader, 0⟩, out) rest = some (⟨.trailerHeader, 0⟩, out) :=
    advance_skip fun b hb => by simp [feed, (hline.2 b hb).2]
  rw [List.cons_append, advance_cons_next hfirst, advance_append hskip]
  rfl

theorem advance_trailerLines {lines : List Bytes} (hlines : ∀ l ∈ lines, l ≠ [] ∧ ∀ c ∈ l, c ≠ 13 ∧ c ≠ 10)
    (out : Bytes) :
    advance feed (⟨.trailer, 0⟩, out) (lines.map (· ++ crlf)).flatten = some (⟨.trailer, 0⟩, out) := by
  induction lines with
  | nil => rfl
  | cons l lines ih =>
    rw [List.forall_mem_cons] at hlines
    rw [List.map_cons, List.flatten_cons, advance_append (advance_trailerLine hlines.1.1 hlines.1.2 out)]
    exact ih hlines.2

theorem hexNumber_zeros {digits : Bytes} (h : ∀ c ∈ digits, c = 48) : hexNumber digits = 0 := by
  have hfold : digits.foldl (fun n c => 16 * n + (hexValue c).getD 0) 0 = 0 := by
    induction digits with
    | nil => rfl
    | cons c digits ih =>
      rw [List.forall_mem_cons] at h
      rw [List.foldl_cons, h.1]
      exact ih h.2
  exact hfold

theorem run_trailer (t : Trailer) (out : Bytes) : run feed (.create, out) t.encode = .done out [] := by
  have hencode : t.encode = t.size ++ ((t.extension ++ crlf) ++ ((t.lines.map (· ++ crlf)).flatten ++ crlf)) := by
    simp [Trailer.encode]
  have hsize : advance feed (.create, out) t.size = some (⟨.chunkSize, 0⟩, out) := by
    have hdigits : ∀ c ∈ t.size, hexValue c ≠ none := by
      intro c hc
      rw [t.hsize c hc]
      decide
    have h := advance_digits hdigits 0 out
    rw [← hexNumber, hexNumber_zeros t.hsize] at h
    exact h
  have hafter : afterSize 0 = ⟨.trailer, 0⟩ := rfl
  rw [hencode, run_of_advance hsize, run_of_advance (advance_sizeLine t.hextension 0 out), hafter,
    run_of_advance (advance_trailerLines t.hlines out)]
  rfl

end ChunkedSink

/-- **A body is decoded exactly.** -/
theorem Message.body_decodes (m : Message) : m.request.bodySink.Decodes m.body.encode m.body.content := by
  have hbody := m.hbody
  have hfields : m.request.headers = m.lines.map HeaderLine.field := rfl
  rw [← hfields] at hbody
  rcases hb : m.body with _ | content | ⟨chunks, trailer⟩ <;> rw [hb] at hbody
  · obtain ⟨hte, hcl⟩ := hbody
    have hsink : m.request.bodySink = .limited 0 := by simp [Request.bodySink, hte, hcl]
    rw [hsink]
    exact .limited []
  · obtain ⟨hte, f, hcl, hlen⟩ := hbody
    have hsink : m.request.bodySink = .limited content.length := by simp [Request.bodySink, hte, hcl, hlen]
    rw [hsink]
    exact .limited content
  · obtain ⟨f, hte, hchunked⟩ := hbody
    have hsink : m.request.bodySink = .chunked .create := by simp [Request.bodySink, hte, hchunked]
    rw [hsink]
    refine .chunked ChunkedSink.live_create ?_
    rw [Body.encode, run_of_advance (ChunkedSink.advance_chunks chunks []), ChunkedSink.run_trailer]
    rfl

end Afl.Net.Http
