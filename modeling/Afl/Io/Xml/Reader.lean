import Afl.Io.Xml.BaseReader
import Afl.Io.Xml.Entities
import Afl.Io.Xml.Input

/-!
# The XML reader

The tokens of `afl/io/xml/reader.cpp`. The loop over a comment can fail to end, so it has fuel for a number of turns,
and `none` says that it has not ended by then. All other loops consume a character with every turn.
-/

namespace Afl.Io.Xml

open Charset

/-- What a reader gets from elsewhere. -/
structure Environment where
  /-- `EntityHandler::expandEntityReference`. -/
  expandEntityReference : Bytes → Bytes
  /-- `CharsetFactory::createCharset`, if it is a `CodepageCharset`. -/
  createCharset : Bytes → Option Codepage

inductive State
  | main
  | inTag
  | inPI
  deriving DecidableEq

structure Reader where
  input : Input
  whitespaceMode : WhitespaceMode
  state : State
  tag : Bytes
  name : Bytes
  value : Bytes
  tagPos : Nat

namespace Reader

open Input

/-- `readCharacterSequence(acceptClasses, 0)`. -/
def skip (acceptClasses : UInt32) (i : Input) : Input := (i.readCharacterSequence acceptClasses).2.2

/-- The characters up to a `>` are ignored, and the `>` itself. -/
def skipTag (i : Input) : Input := (skip (~~~gtChar) i).readNextChar

/-- The loop over the content of a comment, after the first dashes. -/
def commentLoop : Nat → Bool → Bytes → Input → Option (Bytes × Input)
  | 0, _, _, _ => none
  | fuel + 1, loop, value, i =>
    let value := if loop then value ++ [45] else value
    let (_, text, i) := i.readCharacterSequence (~~~(minusChar ||| processQuotes))
    let value := value ++ text
    if i.currentCharacter = 45 then
      let (count, _, i) := i.readCharacterSequence minusChar
      if count < 2 then commentLoop fuel true value i else some (value, i)
    else some (value, i)

/-- A possible comment: `<!-` has been found. -/
def readComment (fuel : Nat) (s : Reader) (i : Input) : Option (Token × Reader) :=
  let (count, _, i) := i.readCharacterSequence minusChar
  match if count ≥ 2 then commentLoop fuel false [] i else some ([], i) with
  | none => none
  | some (value, i) => some (.comment, { s with value := value, input := skipTag i })

/-- A section: `<![` has been found, and the bracket is the current character. -/
def readSection (s : Reader) (i : Input) : Token × Reader :=
  let (_, tmp, i) := i.readNextChar.readCharacterSequence (~~~(lBracketChar ||| processQuotes))
  if tmp = lit "CDATA" then
    let (value, i) := i.readNextChar.readUnparsedCharacterData
    (.text, { s with value := value, input := i })
  else (.error, { s with input := skipTag i })

/-- `<!` has been found, and the exclamation mark is the current character. -/
def readDeclaration (fuel : Nat) (s : Reader) (i : Input) : Option (Token × Reader) :=
  let i := i.readNextChar
  if i.haveCurrentCharacter = false then some (.eof, { s with input := i })
  else if i.currentCharacter = 91 then some (readSection s i)
  else if i.currentCharacter = 45 then readComment fuel s i
  else some (.null, { s with input := skipTag i })

/-- `<?` has been found, and the question mark is the current character. -/
def readPIStart (s : Reader) (i : Input) : Token × Reader :=
  let i := skip whitespaceChar i.readNextChar
  let (_, tag, i) := i.readCharacterSequence (~~~(whitespaceChar ||| gtChar ||| quesChar))
  (.piStart, { s with tag := tag, state := .inPI, input := i })

/-- `</` has been found, and the slash is the current character. -/
def readEndTag (s : Reader) (i : Input) : Token × Reader :=
  let i := skip whitespaceChar i.readNextChar
  let (_, tag, i) := i.readCharacterSequence (~~~(whitespaceChar ||| gtChar))
  (.tagEnd, { s with tag := tag, input := skipTag i })

def readTagStart (s : Reader) (i : Input) : Token × Reader :=
  let (_, tag, i) := i.readCharacterSequence (~~~(whitespaceChar ||| gtChar ||| slashChar))
  (.tagStart, { s with tag := tag, state := .inTag, input := i })

/-- The part of state `Main` for a `<`. -/
def readMarkup (fuel : Nat) (s : Reader) : Option (Token × Reader) :=
  let i := skip whitespaceChar s.input.readNextChar
  if i.haveCurrentCharacter = false then some (.eof, { s with input := i })
  else if i.currentCharacter = 63 then some (readPIStart s i)
  else if i.currentCharacter = 47 then some (readEndTag s i)
  else if i.currentCharacter = 33 then readDeclaration fuel s i
  else some (readTagStart s i)

/-- The characters of `find_first_not_of("\r\n\t ")`. -/
def isBlank (ch : UInt8) : Bool := ch == 13 || ch == 10 || ch == 9 || ch == 32

variable (env : Environment)

/-- The part of state `Main` for anything else. -/
def readText (s : Reader) : Token × Reader :=
  let (_, value, i) := s.input.readCharacterSequence (~~~(ltChar ||| processQuotes))
  let value :=
    if s.whitespaceMode ≠ .allWS ∧ value.all isBlank then
      if s.whitespaceMode = .singleWS then lit " " else []
    else expandEntities env.expandEntityReference value
  (.text, { s with value := value, input := i })

/-- The state `InTag`. -/
def readInTag (s : Reader) : Token × Reader :=
  let i := skip whitespaceChar s.input
  if i.haveCurrentCharacter = false then (.eof, { s with input := i })
  else if i.currentCharacter = 47 then (.tagEnd, { s with input := skipTag i, state := .main })
  else if i.currentCharacter = 62 then (.null, { s with input := i.readNextChar, state := .main })
  else
    let (_, name, i) := i.readCharacterSequence (~~~(whitespaceChar ||| eqChar ||| gtChar ||| slashChar))
    let i := skip whitespaceChar i
    if i.haveCurrentCharacter = false then (.eof, { s with name := name, input := i })
    else if i.currentCharacter = 61 then
      let i := skip whitespaceChar i.readNextChar
      let (_, value, i) := i.readCharacterSequence (~~~(whitespaceChar ||| gtChar ||| slashChar))
      (.tagAttribute, { s with name := name, value := expandEntities env.expandEntityReference value, input := i })
    else (.tagAttribute, { s with name := name, value := name, input := i })

/-- The encoding after an attribute of a processing instruction. Only `<?xml encoding=...?>` sets one, and not in a
document of 16-bit characters. -/
def declareEncoding (tag name value : Bytes) (i : Input) : Input :=
  if (i.encoding = .utf8 ∨ i.encoding = .codepage) ∧ tag = lit "xml" ∧ name = lit "encoding" then
    match env.createCharset value with
    | some codepage => { i with codepage := some codepage, encoding := .codepage }
    | none => { i with codepage := none, encoding := .utf8 }
  else i

/-- The state `InPI`. -/
def readInPI (s : Reader) : Token × Reader :=
  let i := skip whitespaceChar s.input
  if i.haveCurrentCharacter = false then (.eof, { s with input := i })
  else if i.currentCharacter = 63 ∨ i.currentCharacter = 62 then
    (.null, { s with input := skipTag i, state := .main })
  else
    let (_, name, i) := i.readCharacterSequence (~~~(whitespaceChar ||| eqChar ||| quesChar ||| gtChar))
    let i := skip whitespaceChar i
    if i.haveCurrentCharacter = false then (.eof, { s with name := name, input := i })
    else
      let (value, i) :=
        if i.currentCharacter = 61 then
          let i := skip whitespaceChar i.readNextChar
          (i.readCharacterSequence (~~~(whitespaceChar ||| quesChar ||| gtChar))).2
        else (name, i)
      (.piAttribute, { s with name := name, value := value, input := declareEncoding env s.tag name value i })

/-- `m_tagPos = m_charPos`. -/
def marked (s : Reader) : Reader := { s with tagPos := s.input.charPos }

/-- `readNextToken`; `none` while the loop over a comment has not ended. -/
def readNextToken (fuel : Nat) (s : Reader) : Option (Token × Reader) :=
  if s.input.haveCurrentCharacter = false then some (.eof, s)
  else
    match s.state with
    | .main => if s.input.currentCharacter = 60 then readMarkup fuel s.marked else some (readText env s.marked)
    | .inTag => some (readInTag env s.marked)
    | .inPI => some (readInPI env s.marked)

/-- The tokens that `readNext` does not report. -/
def isIgnored (token : Token) (s : Reader) : Bool := token == .null || (token == .text && s.value == [])

/-- `readNext`, with fuel for its own loop and for the one over a comment. -/
def readNext : Nat → Reader → Option (Token × Reader)
  | 0, _ => none
  | fuel + 1, s =>
    match readNextToken env (fuel + 1) s with
    | none => none
    | some (token, s) => if isIgnored token s then readNext fuel s else some (token, s)

def new (stream : InternalStream) : Reader :=
  { input := .start stream, whitespaceMode := .trimWS, state := .main, tag := [], name := [], value := [], tagPos := 0 }

def setWhitespaceMode (mode : WhitespaceMode) (s : Reader) : Reader := { s with whitespaceMode := mode }

def getPos (s : Reader) : Nat := s.tagPos

def setPos (pos : Nat) (s : Reader) : Reader :=
  { s with input := s.input.setPos pos, tagPos := pos, state := .main }

def toBaseReader (fuel : Nat) : BaseReader Reader where
  readNext := readNext env fuel
  getTag := tag
  getName := name
  getValue := value

/-! ### The states of the reader -/

variable {env} {fuel : Nat} {s : Reader} {ch : Unichar} {cs : List Unichar}

theorem readNextToken_end (h : s.input.ahead = []) : readNextToken env fuel s = some (.eof, s) := by
  rw [readNextToken, if_pos (ahead_eq_nil.mp h)]

theorem readNextToken_markup (hstate : s.state = .main) (h : s.input.ahead = 60 :: cs) :
    readNextToken env fuel s = readMarkup fuel s.marked := by
  obtain ⟨hhave, hch, -⟩ := ahead_eq_cons.mp h
  rw [readNextToken, hstate, hhave]
  exact if_pos hch

theorem readNextToken_text (hstate : s.state = .main) (h : s.input.ahead = ch :: cs) (hch : ch ≠ 60) :
    readNextToken env fuel s = some (readText env s.marked) := by
  obtain ⟨hhave, rfl, -⟩ := ahead_eq_cons.mp h
  rw [readNextToken, hstate, hhave]
  exact if_neg hch

theorem readNextToken_inTag (hstate : s.state = .inTag) (h : s.input.ahead = ch :: cs) :
    readNextToken env fuel s = some (readInTag env s.marked) := by
  rw [readNextToken, hstate, (ahead_eq_cons.mp h).1]
  rfl

theorem readNextToken_inPI (hstate : s.state = .inPI) (h : s.input.ahead = ch :: cs) :
    readNextToken env fuel s = some (readInPI env s.marked) := by
  rw [readNextToken, hstate, (ahead_eq_cons.mp h).1]
  rfl

end Reader

end Afl.Io.Xml
