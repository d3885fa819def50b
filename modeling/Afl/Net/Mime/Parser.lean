import Afl.Charset.Base64
import Afl.Charset.UrlEncoding
import Afl.Net.Header

/-!
# Parsing MIME entities

`afl/net/mimeparser.cpp`. The consumer of the `HeaderParser` is the parser itself; here it computes its headers from the
fields that have been parsed when they are asked for. `createCharset` is `DefaultCharsetFactory::createCharset`, which
gives the function that decodes a text. A position in a text or a list of lines is the rest from there on.
-/

namespace Afl.Net

open Charset

abbrev CharsetFactory := Bytes → Option (Bytes → Bytes)

/-! ### Headers -/

/-- `find` with a text of two characters: what comes before it and after it. -/
def cutAt (a b : UInt8) : Bytes → Option (Bytes × Bytes)
  | c :: d :: rest =>
    if c = a ∧ d = b then some ([], rest) else (cutAt a b (d :: rest)).map fun cut => (c :: cut.1, cut.2)
  | _ => none

theorem length_cutAt {a b : UInt8} {s before after : Bytes} (h : cutAt a b s = some (before, after)) :
    after.length < s.length := by
  fun_induction cutAt a b s generalizing before with
  | case1 c d rest hfound =>
    cases h
    exact Nat.lt_succ_of_lt (Nat.lt_succ_self _)
  | case2 c d rest hnot ih =>
    rw [Option.map_eq_some_iff] at h
    obtain ⟨⟨before', after'⟩, hcut, heq⟩ := h
    cases heq
    exact Nat.lt_succ_of_lt (ih hcut)
  | case3 => cases h

theorem eq_of_cutAt {a b : UInt8} {s before after : Bytes} (h : cutAt a b s = some (before, after)) :
    s = before ++ a :: b :: after := by
  fun_induction cutAt a b s generalizing before with
  | case1 c d rest hfound =>
    cases h
    rw [hfound.1, hfound.2]
    rfl
  | case2 c d rest hnot ih =>
    rw [Option.map_eq_some_iff] at h
    obtain ⟨⟨before', after'⟩, hcut, heq⟩ := h
    cases heq
    rw [ih hcut]
    rfl
  | case3 => cases h

/-- The character sets and encodings of an encoded word, given what follows `=?`: its text, decoded, and what follows it;
or what `decodeHeader` appends in case of an error. -/
def encodedWord (createCharset : CharsetFactory) (s : Bytes) : Except Bytes (Bytes × Bytes) :=
  match s.findIdx? (· = 63) with
  | none => .error s
  | some n =>
    let charset := strLCase (s.take n)
    let s := s.drop (n + 1)
    match s.findIdx? (· = 63) with
    | none => .error s
    | some n =>
      let encoding := strLCase (s.take n)
      let s := s.drop (n + 1)
      match cutAt 63 61 s with
      | none => .error s
      | some (word, s) =>
        let word :=
          if encoding = lit "b" then Base64.decode word
          else QuotedPrintable.decode (word.map fun c => if c = 95 then 32 else c)
        .ok ((createCharset charset).elim word fun decode => decode word, s)

theorem length_encodedWord {createCharset : CharsetFactory} {s word rest : Bytes}
    (h : encodedWord createCharset s = .ok (word, rest)) : rest.length ≤ s.length := by
  rw [encodedWord] at h
  split at h
  · cases h
  · dsimp only at h
    split at h
    · cases h
    · split at h
      · cases h
      · next hcut =>
        cases h
        have hless := length_cutAt hcut
        rw [List.length_drop, List.length_drop] at hless
        omega

/-- The loop of `decodeHeader`. White space between two encoded words is dropped. -/
def decodeWords (createCharset : CharsetFactory) (first : Bool) (header : Bytes) : Bytes :=
  match _h : cutAt 61 63 header with
  | none => header
  | some (before, after) =>
    let before := if first || !before.all charIsSpace then before else []
    match _hword : encodedWord createCharset after with
    | .error s => before ++ s
    | .ok (word, rest) => before ++ word ++ decodeWords createCharset false rest
termination_by header.length
decreasing_by exact Nat.lt_of_le_of_lt (length_encodedWord _hword) (length_cutAt _h)

def decodeHeader (createCharset : CharsetFactory) (header : Bytes) : Bytes := decodeWords createCharset true header

theorem cutAt_cons {a b c : UInt8} {s : Bytes} :
    cutAt a b (c :: s) = none ↔ ¬(c = a ∧ s.head? = some b) ∧ cutAt a b s = none := by
  cases s with
  | nil => exact ⟨fun _ => ⟨fun h => absurd h.2 (by simp), rfl⟩, fun _ => rfl⟩
  | cons d rest =>
    rw [cutAt, List.head?_cons, Option.some.injEq]
    split_ifs with hfound
    · exact ⟨nofun, fun h => absurd hfound h.1⟩
    · rw [Option.map_eq_none_iff]
      exact ⟨fun h => ⟨hfound, h⟩, And.right⟩

theorem cutAt_of_not {a b c : UInt8} {s : Bytes} (h : ¬(c = a ∧ s.head? = some b)) :
    cutAt a b (c :: s) = (cutAt a b s).map fun cut => (c :: cut.1, cut.2) := by
  cases s with
  | nil => rfl
  | cons d s =>
    rw [cutAt, if_neg]
    rintro ⟨hc, rfl⟩
    exact h ⟨hc, rfl⟩

theorem pair_prefix_cons {a b c : UInt8} {s : Bytes} : [a, b] <+: c :: s ↔ c = a ∧ s.head? = some b := by
  rw [List.cons_prefix_cons, List.singleton_prefix_iff_head?_eq_some, eq_comm]

theorem cutAt_eq_none_iff {a b : UInt8} {s : Bytes} : cutAt a b s = none ↔ ¬[a, b] <:+: s := by
  induction s with
  | nil => exact iff_of_true rfl fun h => absurd h.length_le (by simp)
  | cons c s ih => rw [cutAt_cons, ih, List.infix_cons_iff, not_or, pair_prefix_cons]

theorem decodeHeader_plain (createCharset : CharsetFactory) {header : Bytes} (h : cutAt 61 63 header = none) :
    decodeHeader createCharset header = header := by
  rw [decodeHeader, decodeWords]
  split
  · rfl
  · next hcut =>
    rw [h] at hcut
    cases hcut

/-! ### The parser -/

inductive MimeState
  | header
  | plainBody
  | base64Body
  | qpBody
deriving DecidableEq

/-- `m_body`, which always has a last line. -/
structure BodyVec where
  lines : List Bytes
  last : Bytes
deriving DecidableEq

namespace BodyVec

def empty : BodyVec := ⟨[], []⟩

def newLine (v : BodyVec) : BodyVec := ⟨v.lines ++ [v.last], []⟩

/-- One character, which may be a newline; `addBody` does this with each one. -/
def addChar (v : BodyVec) (c : UInt8) : BodyVec := if c = 10 then v.newLine else { v with last := v.last ++ [c] }

def addBody (v : BodyVec) (str : Bytes) : BodyVec := str.foldl addChar v

def toList (v : BodyVec) : List Bytes := v.lines ++ [v.last]

end BodyVec

structure MimeParser where
  body : BodyVec
  accum : Bytes
  state : MimeState
  decodeBody : Bool
  headerParser : HeaderParser
deriving DecidableEq

namespace MimeParser

def create : MimeParser := ⟨.empty, [], .header, true, .create⟩

def setDecodeBody (p : MimeParser) (enable : Bool) : MimeParser := { p with decodeBody := enable }

def clear (p : MimeParser) : MimeParser := { create with decodeBody := p.decodeBody }

/-- `processReceivedHeader`: the first block in brackets is added to the trace. -/
def processReceivedHeader (trace value : Bytes) : Bytes :=
  match value.findIdx? (· = 91), value.findIdx? (· = 93) with
  | some a, some e =>
    if a < e then (if trace ≠ [] then trace ++ [47] else trace) ++ (value.take e).drop (a + 1) else trace
  | _, _ => trace

def isReceived (f : HeaderField) : Bool := strCaseCompare f.name (lit "Received") = 0

def getTrace (p : MimeParser) : Bytes :=
  (p.headerParser.table.filter isReceived).foldl (fun trace f => processReceivedHeader trace f.value) []

variable (createCharset : CharsetFactory)

/-- `getHeaders`, from the calls of `handleHeader`. -/
def getHeaders (p : MimeParser) : HeaderTable :=
  (p.headerParser.table.filter fun f => !isReceived f).map fun f =>
    ⟨f.name, decodeHeader createCharset (strLTrim f.value)⟩

def getBody (p : MimeParser) : List Bytes := p.body.toList

def getBodyAsString (p : MimeParser) : Bytes := [10].intercalate p.getBody

/-- The state after the header. -/
def bodyState (p : MimeParser) : MimeState :=
  match HeaderTable.get (p.getHeaders createCharset) (lit "Content-Transfer-Encoding") with
  | none => .plainBody
  | some hf =>
    if !p.decodeBody then .plainBody
    else
      let typ := strLCase hf.getPrimaryValue
      if typ = lit "base64" then .base64Body
      else if typ = lit "quoted-printable" then .qpBody
      else .plainBody

/-- `addDataHeader`, given what the header parser does with the data. -/
def takeHeader (p : MimeParser) (headerParser : HeaderParser) : MimeParser :=
  let p := { p with headerParser := headerParser }
  if headerParser.state = .final then { p with state := p.bodyState createCharset } else p

def addPlain (p : MimeParser) (c : UInt8) : MimeParser := if c = 13 then p else { p with body := p.body.addChar c }

def flushBase64Body (p : MimeParser) : MimeParser :=
  { p with body := p.body.addBody (Base64.decode p.accum), accum := [] }

def addBase64 (p : MimeParser) (c : UInt8) : MimeParser :=
  if c = 13 then p else if c = 10 then p.flushBase64Body else { p with accum := p.accum ++ [c] }

/-- A character of a quoted-printable body. A line that ends in an equal sign is joined with the next one. -/
def addQP (p : MimeParser) (c : UInt8) : MimeParser :=
  if c = 13 then p
  else if c = 10 then
    if p.accum.getLast? = some 61 then
      { p with body := p.body.addBody (QuotedPrintable.decode p.accum.dropLast), accum := [] }
    else { p with body := (p.body.addBody (QuotedPrintable.decode p.accum)).newLine, accum := [] }
  else { p with accum := p.accum ++ [c] }

/-- The loops of `addDataPlainBody`, `addDataBase64Body` and `addDataQPBody`. -/
def addData (p : MimeParser) (data : Bytes) : MimeParser :=
  match p.state with
  | .header => p
  | .plainBody => data.foldl addPlain p
  | .base64Body => data.foldl addBase64 p
  | .qpBody => data.foldl addQP p

/-- `handleData`, which consumes all data: the header, and the body after it. -/
def handleData (p : MimeParser) (data : Bytes) : MimeParser :=
  match p.state with
  | .header =>
    let (headerParser, rest) := p.headerParser.handleData data
    (p.takeHeader createCharset headerParser).addData rest
  | _ => p.addData data

def finish (p : MimeParser) : MimeParser :=
  let p :=
    match p.state with
    | .header => p.takeHeader createCharset (p.headerParser.handleData [10, 10]).1
    | .plainBody => p
    | .base64Body => p.flushBase64Body
    | .qpBody => { p with body := p.body.addBody (QuotedPrintable.decode p.accum) }
  { p with accum := [] }

/-! ### Parts -/

/-- `copyBodyPart`, of the given lines, to a parser. -/
def copyBodyPart (target : MimeParser) (lines : List Bytes) : MimeParser :=
  match lines with
  | [] => target.clear.finish createCharset
  | line :: lines =>
    (lines.foldl (fun p line => (p.handleData createCharset [10]).handleData createCharset line)
      (target.clear.handleData createCharset line)).finish createCharset

/-- Whether a line is the boundary, followed by nothing else than dashes. -/
def isBoundaryLine (boundary line : Bytes) : Bool :=
  boundary.isPrefixOf line && (line.drop boundary.length).all fun c => c = 45

/-- `findNextBoundary`: the lines before the next boundary, and those after it. -/
def findNextBoundary (boundary : Bytes) : List Bytes → Option (List Bytes × List Bytes)
  | [] => none
  | line :: lines =>
    if isBoundaryLine boundary line then some ([], lines)
    else (findNextBoundary boundary lines).map fun found => (line :: found.1, found.2)

theorem length_findNextBoundary {boundary : Bytes} {lines part rest : List Bytes}
    (h : findNextBoundary boundary lines = some (part, rest)) : rest.length < lines.length := by
  induction lines generalizing part with
  | nil => cases h
  | cons line lines ih =>
    rw [findNextBoundary] at h
    split_ifs at h
    · cases h
      exact Nat.lt_succ_self _
    · rw [Option.map_eq_some_iff] at h
      obtain ⟨⟨part', rest'⟩, hfound, heq⟩ := h
      cases heq
      exact Nat.lt_succ_of_lt (ih hfound)

/-- The parts that a `PartIterator` finds from some line on. -/
def partLines (boundary : Bytes) (lines : List Bytes) : List (List Bytes) :=
  match _h : findNextBoundary boundary lines with
  | none => []
  | some (part, rest) => part :: partLines boundary rest
termination_by lines.length
decreasing_by exact length_findNextBoundary _h

/-- The lines from which a new `PartIterator` begins: after the first boundary, if there is one. -/
def firstPosition (boundary : Bytes) (lines : List Bytes) : List Bytes :=
  (findNextBoundary boundary lines).elim lines Prod.snd

/-- What an enumerator of `getParts` yields until its end, if all parts are assigned to the same parser; there is no
enumerator for other content types. -/
def getParts (p : MimeParser) (result : MimeParser) : List MimeParser :=
  match HeaderTable.get (p.getHeaders createCharset) (lit "Content-Type") with
  | none => []
  | some hf =>
    let ct := hf.getPrimaryValue
    if strCaseCompare ct (lit "message/rfc822") = 0 then [result.copyBodyPart createCharset p.getBody]
    else if strCaseCompare (ct.take 10) (lit "multipart/") = 0 then
      match hf.getSecondaryValue (lit "boundary") .default with
      | none => []
      | some boundary =>
        if boundary = [] then []
        else
          (partLines ([45, 45] ++ boundary) (firstPosition ([45, 45] ++ boundary) p.getBody)).map
            (result.copyBodyPart createCharset)
    else []

/-! ### Bodies -/

theorem foldl_state {f : MimeParser → UInt8 → MimeParser} (hf : ∀ p c, (f p c).state = p.state) (p : MimeParser)
    (data : Bytes) : (data.foldl f p).state = p.state := by
  induction data generalizing p with
  | nil => rfl
  | cons c data ih => rw [List.foldl_cons, ih, hf]

theorem addPlain_state (p : MimeParser) (c : UInt8) : (p.addPlain c).state = p.state := by
  rw [addPlain]
  split_ifs <;> rfl

theorem addBase64_state (p : MimeParser) (c : UInt8) : (p.addBase64 c).state = p.state := by
  rw [addBase64]
  split_ifs <;> rfl

theorem addQP_state (p : MimeParser) (c : UInt8) : (p.addQP c).state = p.state := by
  rw [addQP]
  split_ifs <;> rfl

theorem addData_state (p : MimeParser) (data : Bytes) : (p.addData data).state = p.state := by
  rw [addData]
  split
  · rfl
  · exact foldl_state addPlain_state p data
  · exact foldl_state addBase64_state p data
  · exact foldl_state addQP_state p data

theorem addData_eq {p : MimeParser} (hp : p.state ≠ .header) :
    ∃ f : MimeParser → UInt8 → MimeParser, ∀ q : MimeParser, q.state = p.state → ∀ data, q.addData data = data.foldl f q := by
  cases hstate : p.state with
  | header => exact absurd hstate hp
  | plainBody => exact ⟨addPlain, fun q hq data => by rw [addData, hq]⟩
  | base64Body => exact ⟨addBase64, fun q hq data => by rw [addData, hq]⟩
  | qpBody => exact ⟨addQP, fun q hq data => by rw [addData, hq]⟩

theorem addData_append (p : MimeParser) (a b : Bytes) : p.addData (a ++ b) = (p.addData a).addData b := by
  by_cases hp : p.state = .header
  · have hnone : ∀ data, p.addData data = p := fun data => by rw [addData, hp]
    rw [hnone, hnone, hnone]
  · obtain ⟨f, hf⟩ := addData_eq hp
    rw [hf p rfl, hf p rfl, List.foldl_append, hf _ ((hf p rfl a) ▸ addData_state p a)]

theorem takeHeader_incomplete {p : MimeParser} {headerParser : HeaderParser} (h : headerParser.state ≠ .final) :
    p.takeHeader createCharset headerParser = { p with headerParser := headerParser } := by
  rw [takeHeader]
  exact if_neg h

theorem takeHeader_state {p : MimeParser} {headerParser : HeaderParser} (h : headerParser.state = .final) :
    (p.takeHeader createCharset headerParser).state ≠ .header := by
  rw [takeHeader]
  dsimp only
  rw [if_pos h]
  dsimp only
  rw [bodyState]
  split
  · decide
  · dsimp only
    split_ifs <;> decide

theorem handleData_header {p : MimeParser} (hp : p.state = .header) (data : Bytes) :
    p.handleData createCharset data =
      (p.takeHeader createCharset (p.headerParser.handleData data).1).addData (p.headerParser.handleData data).2 := by
  rw [handleData, hp]

theorem handleData_body {p : MimeParser} (hp : p.state ≠ .header) (data : Bytes) :
    p.handleData createCharset data = p.addData data := by
  rw [handleData]
  split
  · exact absurd ‹_› hp
  · rfl

end MimeParser

end Afl.Net
