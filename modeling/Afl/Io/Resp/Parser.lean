import Afl.Data.Value
import Afl.Lib.Feed

/-!
# The RESP parser

`afl/io/resp/parser.cpp`: a push parser that keeps its position in a tree of states. Every `handleData` returns the
state it leaves behind, or the value it produced, with the part of its `data` argument it did not consume; a syntax
error leaves the members and the descriptor as they were when it was thrown.

The loops of `ArrayState::handleData` and `Parser::handleData` call each other and share a fuel argument. `feed` says
what a single byte does, and by `handleData_eq_run` the parser does to a piece exactly what `feed` does to its bytes one
after another.
-/

namespace Afl.Io.Resp

open Feed

def sourceId : Bytes := lit "<Parser>"

/-- What `State::syntaxError` throws. -/
def syntaxError : Exception := .fileFormat sourceId (lit "Syntax error")

inductive Kind
  | integer
  | bulk
  | array
deriving DecidableEq

/-- `IntState::m_state`. -/
inductive Phase
  | virgin
  | positive
  | positiveDigits
  | negative
  | negativeDigits
deriving DecidableEq

/-- A parser state with its members. An `ArrayState` is never instantiated for an empty array, and its own
parser never accepts the short form. -/
inductive State
  | root
  | string (success : Bool) (value : Bytes)
  | int (kind : Kind) (phase : Phase) (value : Int)
  | bulk (size : Nat) (value : Bytes)
  | array (size : Nat) (hsize : 0 < size) (value : Segment) (parser : State)
  | short (accumulator : Bytes) (value : Segment)

/-- `more` leaves a state, `done` a value (and no state), `fail` is a syntax error. -/
abbrev Outcome := Result State UInt8 Value

/-! ### The states -/

/-- The switch of `RootState::handleData`; `none` is a syntax error. -/
def RootState.select (acceptShort : Bool) (ch : UInt8) : Option State :=
  if ch = 43 then some (.string true [])
  else if ch = 45 then some (.string false [])
  else if ch = 58 then some (.int .integer .virgin 0)
  else if ch = 36 then some (.int .bulk .virgin 0)
  else if ch = 42 then some (.int .array .virgin 0)
  else if acceptShort && (charIsUpper ch || charIsLower ch) then some (.short [ch] [])
  else none

def RootState.handleData (acceptShort : Bool) : Bytes → Outcome
  | [] => .more .root []
  | ch :: data =>
    match select acceptShort ch with
    | some s => .more s data
    | none => .fail .root data

/-- The value a `StringState` produces. -/
def StringState.result (success : Bool) (value : Bytes) : Value :=
  if success then .string value else .error sourceId value

def StringState.handleData (success : Bool) : Bytes → Bytes → Outcome
  | value, [] => .more (.string success value) []
  | value, ch :: data =>
    if ch = 13 then handleData success value data
    else if ch = 10 then .done (result success value) data
    else handleData success (value ++ [ch]) data

/-- A digit, with the tests that keep `m_value` within `int32_t`; `none` is a syntax error. -/
def IntState.addDigit (phase : Phase) (value digit : Int) : Option (Phase × Int) :=
  if phase = .negative ∨ phase = .negativeDigits then
    if value < -214748364 ∨ (value ≠ 0 ∧ 10 * value - -2147483648 < digit) then none
    else some (.negativeDigits, 10 * value - digit)
  else
    if value > 214748364 ∨ 2147483647 - 10 * value < digit then none
    else some (.positiveDigits, 10 * value + digit)

/-- The end of the line: a value, or the state that reads what the number announces. -/
def IntState.finish (kind : Kind) (value : Int) : Reaction State Value :=
  match kind with
  | .integer => .done (.integer (Int32.ofInt value))
  | .array =>
    if value < 0 then .done .null
    else if h : value = 0 then .done (.vector [])
    else .next (.array value.natAbs (Int.natAbs_pos.mpr h) [] .root)
  | .bulk => if value < 0 then .done .null else .next (.bulk value.natAbs [])

def IntState.handleData (kind : Kind) : Phase → Int → Bytes → Outcome
  | phase, value, [] => .more (.int kind phase value) []
  | phase, value, ch :: data =>
    if ch = 43 then
      if phase ≠ .virgin then .fail (.int kind phase value) data
      else handleData kind .positive value data
    else if ch = 45 then
      if phase ≠ .virgin then .fail (.int kind phase value) data
      else handleData kind .negative value data
    else if 48 ≤ ch ∧ ch ≤ 57 then
      match addDigit phase value (ch.toNat - 48) with
      | none => .fail (.int kind phase value) data
      | some (phase', value') => handleData kind phase' value' data
    else if ch = 13 then handleData kind phase value data
    else if ch = 10 then
      if phase ≠ .positiveDigits ∧ phase ≠ .negativeDigits then .fail (.int kind phase value) data
      else
        match finish kind value with
        | .next s => .more s data
        | .done v => .done v data
        | .fail => .fail (.int kind phase value) data
    else .fail (.int kind phase value) data

/-- The second half of `BulkState::handleData`: the line end after the last byte. -/
def BulkState.trailer (value : Bytes) : Bytes → Outcome
  | [] => .more (.bulk 0 value) []
  | ch :: data =>
    if ch = 13 then trailer value data
    else if ch = 10 then .done (.string value) data
    else .fail (.bulk 0 value) data

/-- `splitUpdate` takes what the bulk string still needs. -/
def BulkState.handleData (size : Nat) (value data : Bytes) : Outcome :=
  let now := data.take size
  let rest := data.drop size
  if size - now.length = 0 then trailer (value ++ now) rest
  else .more (.bulk (size - now.length) (value ++ now)) rest

/-- Whitespace ends a word of the short form. -/
def ShortState.endWord (accumulator : Bytes) (value : Segment) : Segment :=
  if accumulator = [] then value else value ++ [.string accumulator]

def ShortState.handleData : Bytes → Segment → Bytes → Outcome
  | accumulator, value, [] => .more (.short accumulator value) []
  | accumulator, value, ch :: data =>
    if ch = 32 ∨ ch = 9 ∨ ch = 13 ∨ ch = 10 then
      if ch = 10 then .done (.vector (endWord accumulator value)) data
      else handleData [] (endWord accumulator value) data
    else handleData (accumulator ++ [ch]) value data

/-! ### The loops -/

mutual

/-- The virtual `State::handleData`. `none` is out of fuel. -/
def State.handleData : Nat → Bool → State → Bytes → Option Outcome
  | 0, _, _, _ => none
  | _ + 1, acceptShort, .root, data => some (RootState.handleData acceptShort data)
  | _ + 1, _, .string success value, data => some (StringState.handleData success value data)
  | _ + 1, _, .int kind phase value, data => some (IntState.handleData kind phase value data)
  | _ + 1, _, .bulk size value, data => some (BulkState.handleData size value data)
  | fuel + 1, _, .array size _ value parser, data => arrayLoop fuel size value parser data
  | _ + 1, _, .short accumulator value, data => some (ShortState.handleData accumulator value data)

/-- `ArrayState::handleData`: read elements while there is data, then see whether the array is complete. -/
def arrayLoop : Nat → Nat → Segment → State → Bytes → Option Outcome
  | 0, _, _, _, _ => none
  | fuel + 1, size, value, parser, data =>
    if hsize : size = 0 then some (.done (.vector value) data)
    else if data = [] then some (.more (.array size (Nat.pos_of_ne_zero hsize) value parser) data)
    else
      match parserLoop fuel false parser data with
      | none => none
      | some (.more parser' rest) => arrayLoop fuel size value parser' rest
      | some (.done v rest) => arrayLoop fuel (size - 1) (value ++ [v]) .root rest
      | some (.fail parser' rest) =>
        some (.fail (.array size (Nat.pos_of_ne_zero hsize) value parser') rest)

/-- The loop of `Parser::handleData`. -/
def parserLoop : Nat → Bool → State → Bytes → Option Outcome
  | 0, _, _, _ => none
  | fuel + 1, acceptShort, state, data =>
    if data = [] then some (.more state data)
    else
      match State.handleData fuel acceptShort state data with
      | none => none
      | some (.more state' rest) => parserLoop fuel acceptShort state' rest
      | some r => some r

end

def State.depth : State → Nat
  | .array _ _ _ parser => parser.depth + 1
  | _ => 0

/-- `Parser::handleData`, with fuel that always suffices (`parserLoop_eq_run`). A produced value is taken out
with `extract`, which puts the parser back into the root state. -/
def Parser.handleData (acceptShort : Bool) (state : State) (data : Bytes) : Outcome :=
  (parserLoop (4 * data.length + 3 * state.depth + 2) acceptShort state data).getD (.more state data)

/-! ### One byte -/

def feed : Bool → State → UInt8 → Reaction State Value
  | acceptShort, .root, ch =>
    match RootState.select acceptShort ch with
    | some s => .next s
    | none => .fail
  | _, .string success value, ch =>
    if ch = 13 then .next (.string success value)
    else if ch = 10 then .done (StringState.result success value)
    else .next (.string success (value ++ [ch]))
  | _, .int kind phase value, ch =>
    if ch = 43 then if phase ≠ .virgin then .fail else .next (.int kind .positive value)
    else if ch = 45 then if phase ≠ .virgin then .fail else .next (.int kind .negative value)
    else if 48 ≤ ch ∧ ch ≤ 57 then
      match IntState.addDigit phase value (ch.toNat - 48) with
      | none => .fail
      | some (phase', value') => .next (.int kind phase' value')
    else if ch = 13 then .next (.int kind phase value)
    else if ch = 10 then
      if phase ≠ .positiveDigits ∧ phase ≠ .negativeDigits then .fail else IntState.finish kind value
    else .fail
  | _, .bulk 0 value, ch =>
    if ch = 13 then .next (.bulk 0 value)
    else if ch = 10 then .done (.string value)
    else .fail
  | _, .bulk (size + 1) value, ch => .next (.bulk size (value ++ [ch]))
  | _, .array size hsize value parser, ch =>
    match feed false parser ch with
    | .next parser' => .next (.array size hsize value parser')
    | .done v =>
      if h : size - 1 = 0 then .done (.vector (value ++ [v]))
      else .next (.array (size - 1) (Nat.pos_of_ne_zero h) (value ++ [v]) .root)
    | .fail => .fail
  | _, .short accumulator value, ch =>
    if ch = 32 ∨ ch = 9 ∨ ch = 13 ∨ ch = 10 then
      if ch = 10 then .done (.vector (ShortState.endWord accumulator value))
      else .next (.short [] (ShortState.endWord accumulator value))
    else .next (.short (accumulator ++ [ch]) value)

section

variable (acceptShort : Bool) (ch : UInt8)

theorem feed_root :
    feed acceptShort .root ch =
      match RootState.select acceptShort ch with
      | some s => .next s
      | none => .fail := rfl

theorem feed_string (success : Bool) (value : Bytes) :
    feed acceptShort (.string success value) ch =
      if ch = 13 then .next (.string success value)
      else if ch = 10 then .done (StringState.result success value)
      else .next (.string success (value ++ [ch])) := rfl

theorem feed_int (kind : Kind) (phase : Phase) (value : Int) :
    feed acceptShort (.int kind phase value) ch =
      if ch = 43 then if phase ≠ .virgin then .fail else .next (.int kind .positive value)
      else if ch = 45 then if phase ≠ .virgin then .fail else .next (.int kind .negative value)
      else if 48 ≤ ch ∧ ch ≤ 57 then
        match IntState.addDigit phase value (ch.toNat - 48) with
        | none => .fail
        | some (phase', value') => .next (.int kind phase' value')
      else if ch = 13 then .next (.int kind phase value)
      else if ch = 10 then
        if phase ≠ .positiveDigits ∧ phase ≠ .negativeDigits then .fail else IntState.finish kind value
      else .fail := rfl

theorem feed_bulk_zero (value : Bytes) :
    feed acceptShort (.bulk 0 value) ch =
      if ch = 13 then .next (.bulk 0 value)
      else if ch = 10 then .done (.string value)
      else .fail := rfl

theorem feed_bulk_succ (size : Nat) (value : Bytes) :
    feed acceptShort (.bulk (size + 1) value) ch = .next (.bulk size (value ++ [ch])) := rfl

theorem feed_array (size : Nat) (hsize : 0 < size) (value : Segment) (parser : State) :
    feed acceptShort (.array size hsize value parser) ch =
      match feed false parser ch with
      | .next parser' => .next (.array size hsize value parser')
      | .done v =>
        if h : size - 1 = 0 then .done (.vector (value ++ [v]))
        else .next (.array (size - 1) (Nat.pos_of_ne_zero h) (value ++ [v]) .root)
      | .fail => .fail := rfl

theorem feed_short (accumulator : Bytes) (value : Segment) :
    feed acceptShort (.short accumulator value) ch =
      if ch = 32 ∨ ch = 9 ∨ ch = 13 ∨ ch = 10 then
        if ch = 10 then .done (.vector (ShortState.endWord accumulator value))
        else .next (.short [] (ShortState.endWord accumulator value))
      else .next (.short (accumulator ++ [ch]) value) := rfl

end

end Afl.Io.Resp
