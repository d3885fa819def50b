import Afl.String.Parse

/-!
# Message headers

`afl/net/headerparser.cpp`, `headertable.cpp` and the part of `headerfield.cpp` that the HTTP server uses, with
the string functions they call. The consumer of a `HeaderParser` is the `HeaderTable` it fills.
-/

namespace Afl.Net

/-- A `char` as a number. -/
def charValue (ch : UInt8) : Int := if ch < 128 then ch.toNat else ch.toNat - 256

/-- `strCaseCompare`: zero if the texts are equal up to the case of ASCII letters. -/
def strCaseCompare : Bytes → Bytes → Int
  | [], [] => 0
  | [], _ :: _ => -1
  | _ :: _, [] => 1
  | ca :: a, cb :: b =>
    if charValue (charToUpper ca) - charValue (charToUpper cb) ≠ 0 then
      charValue (charToUpper ca) - charValue (charToUpper cb)
    else strCaseCompare a b

theorem charValue_injective {a b : UInt8} (h : charValue a = charValue b) : a = b := by
  have ha := a.toNat_lt
  have hb := b.toNat_lt
  rw [charValue, charValue] at h
  apply UInt8.toNat_inj.1
  have hlt : ∀ c : UInt8, c < 128 ↔ c.toNat < 128 := fun c => UInt8.lt_iff_toNat_lt
  simp only [hlt] at h
  split_ifs at h <;> omega

theorem strCaseCompare_eq_zero {a b : Bytes} : strCaseCompare a b = 0 ↔ strUCase a = strUCase b := by
  induction a generalizing b with
  | nil =>
    cases b with
    | nil => exact ⟨fun _ => rfl, fun _ => rfl⟩
    | cons cb b => exact ⟨fun h => absurd h (show (-1 : Int) ≠ 0 by decide), fun h => nomatch h⟩
  | cons ca a ih =>
    cases b with
    | nil => exact ⟨fun h => absurd h (show (1 : Int) ≠ 0 by decide), fun h => nomatch h⟩
    | cons cb b =>
      rw [strCaseCompare, strUCase, strUCase, List.map_cons, List.map_cons, List.cons.injEq]
      split_ifs with hdiffer
      · exact ⟨fun h => absurd h hdiffer, fun h => absurd (by rw [h.1, Int.sub_self]) hdiffer⟩
      · have hchar : charToUpper ca = charToUpper cb := charValue_injective (by omega)
        rw [ih]
        exact ⟨fun h => ⟨hchar, h⟩, And.right⟩

def strLTrim (s : Bytes) : Bytes := s.dropWhile charIsSpace

def strRTrim (s : Bytes) : Bytes := (s.reverse.dropWhile charIsSpace).reverse

def strTrim (s : Bytes) : Bytes := strLTrim (strRTrim s)

/-! ### Fields and tables -/

structure HeaderField where
  name : Bytes
  value : Bytes
deriving DecidableEq

/-- `HeaderTable`: the fields in the order they were added. -/
abbrev HeaderTable := List HeaderField

def HeaderTable.get (t : HeaderTable) (name : Bytes) : Option HeaderField :=
  List.find? (fun f => strCaseCompare name f.name = 0) t

def HeaderTable.writeHeaders (t : HeaderTable) : Bytes :=
  List.flatMap (fun f => f.name ++ [58, 32] ++ f.value ++ [13, 10]) t

/-! ### The parser -/

/-- `HeaderParser::State`. -/
inductive HeaderState
  | initial
  | key
  | value
  | newline
  | error
  | final
deriving DecidableEq

structure HeaderParser where
  table : HeaderTable
  hasErrors : Bool
  hasFolding : Bool
  key : Bytes
  value : Bytes
  state : HeaderState
deriving DecidableEq

namespace HeaderParser

def create : HeaderParser := ⟨[], false, false, [], [], .initial⟩

def flush (p : HeaderParser) : HeaderParser :=
  { p with table := p.table ++ [⟨p.key, p.value⟩], key := [], value := [] }

/-- Leading whitespace is not part of a value. -/
def appendBlank (p : HeaderParser) (ch : UInt8) : HeaderParser :=
  if p.value = [] then p else { p with value := p.value ++ [ch] }

def handleNewline (p : HeaderParser) : HeaderParser :=
  match p.state with
  | .initial => { p with state := .final }
  | .key => { p with hasErrors := true, key := [], state := .initial }
  | .value => { p with state := .newline }
  | .newline => { p.flush with state := .final }
  | .error => { p with key := [], state := .initial }
  | .final => p

def handleBlank (p : HeaderParser) (ch : UInt8) : HeaderParser :=
  match p.state with
  | .initial | .key => { p with key := [], hasErrors := true, state := .error }
  | .value => p.appendBlank ch
  | .newline => { p with hasFolding := true, state := .value }.appendBlank ch
  | .error | .final => p

def handleColon (p : HeaderParser) (ch : UInt8) : HeaderParser :=
  match p.state with
  | .initial => { p with hasErrors := true, state := .error }
  | .key => { p with state := .value }
  | .value => { p with value := p.value ++ [ch] }
  | .newline => { p.flush with hasErrors := true, state := .error }
  | .error | .final => p

def handleOther (p : HeaderParser) (ch : UInt8) : HeaderParser :=
  match p.state with
  | .initial => { p with key := p.key ++ [ch], state := .key }
  | .key => { p with key := p.key ++ [ch] }
  | .value => { p with value := p.value ++ [ch] }
  | .newline => { p.flush with key := [ch], state := .key }
  | .error | .final => p

/-- The switch of `handleData`. -/
def step (p : HeaderParser) (ch : UInt8) : HeaderParser :=
  if ch = 0 then { p with hasErrors := true }
  else if ch = 13 then p
  else if ch = 10 then p.handleNewline
  else if ch = 32 ∨ ch = 9 then p.handleBlank ch
  else if ch = 58 then p.handleColon ch
  else p.handleOther ch

/-- `handleData`: the parser and the unprocessed bytes; the header is complete if its state is `final`. -/
def handleData : HeaderParser → Bytes → HeaderParser × Bytes
  | p, [] => (p, [])
  | p, ch :: bytes => if p.state = .final then (p, ch :: bytes) else handleData (p.step ch) bytes

end HeaderParser

/-! ### Fields with several values

The functions of `afl/net/headerfield.cpp` that take a field such as `text/plain; charset=utf-8` apart, with their
modes. -/

/-- The flags `NoComments`, `NoQuotes` and `NoPrimary`. -/
structure FieldMode where
  noComments : Bool
  noQuotes : Bool
  noPrimary : Bool

def FieldMode.default : FieldMode := ⟨false, false, false⟩

/-- The states of `extractPart`. -/
inductive PartState
  | raw
  | dq
  | dqq
  | paren
  | parenQ

/-- `extractPart`: the part, and the value from the position behind it on. Quotes are interpreted, comments are skipped,
and an unquoted semicolon ends the part. -/
def extractPart (mode : FieldMode) : PartState → Bytes → Bytes × Bytes
  | _, [] => ([], [])
  | .raw, c :: value =>
    if c = 34 ∧ ¬mode.noQuotes then extractPart mode .dq value
    else if c = 40 ∧ ¬mode.noComments then extractPart mode .paren value
    else if c = 59 then ([], value)
    else
      let (part, rest) := extractPart mode .raw value
      (c :: part, rest)
  | .dq, c :: value =>
    if c = 92 then extractPart mode .dqq value
    else if c = 34 then extractPart mode .raw value
    else
      let (part, rest) := extractPart mode .dq value
      (c :: part, rest)
  | .dqq, c :: value =>
    let (part, rest) := extractPart mode .dq value
    (c :: part, rest)
  | .paren, c :: value =>
    if c = 41 then extractPart mode .raw value
    else if c = 92 then extractPart mode .parenQ value
    else extractPart mode .paren value
  | .parenQ, _ :: value => extractPart mode .paren value

theorem length_extractPart (mode : FieldMode) (state : PartState) (value : Bytes) :
    (extractPart mode state value).2.length ≤ value.length ∧
      (value ≠ [] → (extractPart mode state value).2.length < value.length) := by
  induction value generalizing state with
  | nil => cases state <;> exact ⟨Nat.le_refl _, fun h => absurd rfl h⟩
  | cons c value ih =>
    have hless : (extractPart mode state (c :: value)).2.length ≤ value.length := by
      cases state with
      | raw =>
        simp only [extractPart]
        split_ifs
        · exact (ih _).1
        · exact (ih _).1
        · exact Nat.le_refl _
        · exact (ih _).1
      | dq =>
        simp only [extractPart]
        split_ifs <;> exact (ih _).1
      | dqq => exact (ih _).1
      | paren =>
        simp only [extractPart]
        split_ifs <;> exact (ih _).1
      | parenQ => exact (ih _).1
    exact ⟨Nat.le_succ_of_le hless, fun _ => Nat.lt_succ_of_le hless⟩

/-- All parts from a position on. -/
def parts (mode : FieldMode) (value : Bytes) : List Bytes :=
  if _h : value = [] then [] else (extractPart mode .raw value).1 :: parts mode (extractPart mode .raw value).2
termination_by value.length
decreasing_by exact (length_extractPart mode .raw value).2 _h

theorem parts_nil (mode : FieldMode) : parts mode [] = [] := by
  rw [parts, dif_pos rfl]

theorem parts_cons {value : Bytes} (h : value ≠ []) (mode : FieldMode) :
    parts mode value = (extractPart mode .raw value).1 :: parts mode (extractPart mode .raw value).2 := by
  rw [parts, dif_neg h]

/-- The call for a part: `a=b`, or just `a`. -/
def secondaryValue (part : Bytes) : HeaderField :=
  match part.findIdx? (· = 61) with
  | some pos => ⟨strTrim (part.take pos), strTrim (part.drop (pos + 1))⟩
  | none => ⟨strTrim part, []⟩

namespace HeaderField

def getPrimaryValueMode (f : HeaderField) (mode : FieldMode) : Bytes := strTrim (extractPart mode .raw f.value).1

/-- `getPrimaryValue` without one. -/
def getPrimaryValue (f : HeaderField) : Bytes := f.getPrimaryValueMode .default

example : (HeaderField.mk (lit "a") (lit "chunked; q=1 ")).getPrimaryValue = lit "chunked" := by decide

/-- `enumerateSecondaryValues`: what the consumer gets. -/
def enumerateSecondaryValues (f : HeaderField) (mode : FieldMode) : HeaderTable :=
  (parts mode (if mode.noPrimary then f.value else (extractPart mode .raw f.value).2)).map secondaryValue

def getSecondaryValue (f : HeaderField) (name : Bytes) (mode : FieldMode) : Option Bytes :=
  ((f.enumerateSecondaryValues mode).find? fun v => strCaseCompare v.name name = 0).map HeaderField.value

end HeaderField

end Afl.Net
