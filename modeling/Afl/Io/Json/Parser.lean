import Afl.Charset.Utf8
import Afl.Data.Value

/-!
# The JSON parser

`afl/io/json/parser.cpp`: a recursive descent parser over a stream of bytes, with the values of
`DefaultValueFactory`. The functions take the data that is still to be read and return what they leave.
A parser is a class so that the stream's name, which only shows in exceptions, and the conversion of floating
point numbers need not be passed around.
-/

namespace Afl.Io.Json

open Charset

/-- What the parser gets from elsewhere. -/
class ParserClass where
  /-- The name of the stream. -/
  name : Bytes
  /-- `strToFloat`, with the two observations that stand for a float. -/
  strToFloat : Bytes → Option (Bytes × Int32)

namespace Parser

variable [ParserClass]

def endOfFile : Exception := .fileTooShort ParserClass.name

def syntaxError : Exception := .fileFormat ParserClass.name (lit "Syntax error")

def skipWhitespace (data : Bytes) : Bytes := data.dropWhile charIsSpace

/-- `parseChar(which)`: the character is expected but not consumed. -/
def parseChar (which : UInt8) : Bytes → Except Exception Unit
  | [] => .error endOfFile
  | ch :: _ => if ch ≠ which then .error syntaxError else .ok ()

/-- `parseChar(first, second)`: whether the first or the second of two characters follows. -/
def parseChar2 (first second : UInt8) : Bytes → Except Exception Bool
  | [] => .error endOfFile
  | ch :: _ => if ch = first then .ok true else if ch = second then .ok false else .error syntaxError

/-- A digit of `parseUnicodeEscape`. -/
def hexDigit (ch : UInt8) : Option UInt32 :=
  if 48 ≤ ch ∧ ch ≤ 57 then some (ch.toUInt32 - 48)
  else if 65 ≤ ch ∧ ch ≤ 70 then some (ch.toUInt32 - 65 + 10)
  else if 97 ≤ ch ∧ ch ≤ 102 then some (ch.toUInt32 - 97 + 10)
  else none

/-- The loop of `parseUnicodeEscape`: so many digits to go. -/
def unicodeLoop : Nat → UInt32 → Bytes → Except Exception (UInt32 × Bytes)
  | 0, result, data => .ok (result, data)
  | _ + 1, _, [] => .error endOfFile
  | n + 1, result, ch :: data =>
    match hexDigit ch with
    | some d => unicodeLoop n ((result <<< 4) + d) data
    | none => .error syntaxError

def parseUnicodeEscape (data : Bytes) : Except Exception (UInt32 × Bytes) := unicodeLoop 4 0 data

/-- The character after a backslash, except `u`. -/
def unescape (ch : UInt8) : Option UInt8 :=
  if ch = 34 then some 34
  else if ch = 39 then some 39
  else if ch = 92 then some 92
  else if ch = 47 then some 47
  else if ch = 98 then some 8
  else if ch = 102 then some 12
  else if ch = 110 then some 10
  else if ch = 114 then some 13
  else if ch = 116 then some 9
  else none

def parseEscape : Bytes → Except Exception (Bytes × Bytes)
  | [] => .error endOfFile
  | ch :: data =>
    if ch = 117 then
      match parseUnicodeEscape data with
      | .error e => .error e
      | .ok (uc, rest) => .ok (Utf8.append 0 uc, rest)
    else
      match unescape ch with
      | some c => .ok ([c], data)
      | none => .error syntaxError

/-- The loop of `parseString`. Every turn consumes something, so fuel for all the data runs out at the end of it. -/
def stringLoop : Nat → Bytes → Bytes → Except Exception (Bytes × Bytes)
  | 0, _, _ => .error endOfFile
  | _ + 1, _, [] => .error endOfFile
  | fuel + 1, value, ch :: data =>
    if ch = 34 then .ok (value, data)
    else if ch = 92 then
      match parseEscape data with
      | .error e => .error e
      | .ok (text, rest) => stringLoop fuel (value ++ text) rest
    else if ch < 0x20 then .error syntaxError
    else stringLoop fuel (value ++ [ch]) data

/-- `parseString`, after the opening quote. -/
def parseString (data : Bytes) : Except Exception (Bytes × Bytes) := stringLoop data.length [] data

def isNumberChar (ch : UInt8) : Bool :=
  ch == 43 || ch == 45 || ch == 46 || ch == 101 || ch == 69 || charIsDigit ch

def parseNumber (data : Bytes) : Except Exception (Value × Bytes) :=
  let str := data.takeWhile isNumberChar
  let rest := data.dropWhile isNumberChar
  match strToInt32 str with
  | some iv => .ok (.integer iv, rest)
  | none =>
    match ParserClass.strToFloat str with
    | some (text, cast) => .ok (.float text cast, rest)
    | none => .error syntaxError

/-- The characters that must not follow a keyword. -/
def isIdentifierChar (ch : UInt8) : Bool := charIsLower ch || charIsUpper ch || ch == 95 || charIsDigit ch

/-- `parseKeyword`: the keyword, and no identifier character after it. -/
def parseKeyword : Bytes → Bytes → Except Exception Bytes
  | [], data => if data.head?.any isIdentifierChar then .error syntaxError else .ok data
  | _ :: _, [] => .error endOfFile
  | c :: kw, ch :: data => if ch ≠ c then .error syntaxError else parseKeyword kw data

def keywordValue (kw : Bytes) (v : Value) (data : Bytes) : Except Exception (Value × Bytes) :=
  match parseKeyword kw data with
  | .error e => .error e
  | .ok rest => .ok (v, rest)

/-! ### Hashes -/

/-- `NameMap::addMaybe`: the index of a name, which is added if it is new. -/
def addMaybe (names : List Bytes) (name : Bytes) : Nat × List Bytes :=
  match names.idxOf? name with
  | some index => (index, names)
  | none => (names.length, names ++ [name])

/-- `Segment::setNew`: the index is made accessible first. -/
def setNew (values : Segment) (index : Nat) (v : Value) : Segment :=
  (values ++ List.replicate (index + 1 - values.length) Value.null).set index v

/-- `createHash`: the names with the values of the same index. -/
def createHash (names : List Bytes) (values : Segment) : Value :=
  .hash (names.mapIdx fun index name => (name, values.getD index .null))

/-! ### Values -/

mutual

/-- `parse`. `none` is out of fuel. -/
def parse : Nat → Bytes → Option (Except Exception (Value × Bytes))
  | 0, _ => none
  | fuel + 1, data =>
    match skipWhitespace data with
    | [] => some (.error endOfFile)
    | ch :: rest =>
      if ch = 91 then
        -- `parseArray`: the bracket is skipped
        match skipWhitespace rest with
        | [] => some (.error endOfFile)
        | next :: tail => if next ≠ 93 then elements fuel [] (next :: tail) else some (.ok (.vector [], tail))
      else if ch = 123 then
        -- `parseHash`: the brace is skipped
        match skipWhitespace rest with
        | [] => some (.error endOfFile)
        | next :: tail =>
          if next ≠ 125 then members fuel [] [] (next :: tail) else some (.ok (createHash [] [], tail))
      else if ch = 34 then
        match parseString rest with
        | .error e => some (.error e)
        | .ok (str, rest) => some (.ok (.string str, rest))
      else if ch = 110 then some (keywordValue (lit "null") .null (ch :: rest))
      else if ch = 116 then some (keywordValue (lit "true") (.boolean true) (ch :: rest))
      else if ch = 102 then some (keywordValue (lit "false") (.boolean false) (ch :: rest))
      else if ch = 45 ∨ charIsDigit ch then some (parseNumber (ch :: rest))
      else some (.error syntaxError)

/-- The loop of `parseArray`. -/
def elements : Nat → Segment → Bytes → Option (Except Exception (Value × Bytes))
  | 0, _, _ => none
  | fuel + 1, values, data =>
    match parse fuel data with
    | none => none
    | some (.error e) => some (.error e)
    | some (.ok (v, rest)) =>
      match parseChar2 44 93 (skipWhitespace rest) with
      | .error e => some (.error e)
      | .ok true => elements fuel (values ++ [v]) ((skipWhitespace rest).drop 1)
      | .ok false => some (.ok (.vector (values ++ [v]), (skipWhitespace rest).drop 1))

/-- The loop of `parseHash`. -/
def members : Nat → List Bytes → Segment → Bytes → Option (Except Exception (Value × Bytes))
  | 0, _, _, _ => none
  | fuel + 1, names, values, data =>
    match parseChar 34 data with
    | .error e => some (.error e)
    | .ok () =>
      match parseString (data.drop 1) with
      | .error e => some (.error e)
      | .ok (name, rest) =>
        let (index, names) := addMaybe names name
        match parseChar 58 (skipWhitespace rest) with
        | .error e => some (.error e)
        | .ok () =>
          match parse fuel ((skipWhitespace rest).drop 1) with
          | none => none
          | some (.error e) => some (.error e)
          | some (.ok (v, rest)) =>
            let values := setNew values index v
            match parseChar2 44 125 (skipWhitespace rest) with
            | .error e => some (.error e)
            | .ok true => members fuel names values (skipWhitespace ((skipWhitespace rest).drop 1))
            | .ok false => some (.ok (createHash names values, (skipWhitespace rest).drop 1))

end

/-- `parseComplete`: one value and nothing but whitespace after it. -/
def parseComplete (data : Bytes) : Option (Except Exception Value) :=
  match parse (2 * data.length + 1) data with
  | none => none
  | some (.error e) => some (.error e)
  | some (.ok (v, rest)) => if skipWhitespace rest ≠ [] then some (.error syntaxError) else some (.ok v)

end Parser

end Afl.Io.Json
