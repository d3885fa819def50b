import Afl.Data.Value

/-!
# The JSON writer

`afl/io/json/writer.cpp`: a visitor that writes one token after the other. A token may ask for a line break
before or after itself, which is made when the writer indents its output or when the line would get too long.
Sizes are 64-bit and wrap around as `size_t` does.
-/

namespace Afl.Io.Json

/-- The configuration: `setLineLength`, `setIndentStep`. -/
structure Layout where
  lineLength : UInt64
  indentStep : UInt64

/-- The state between two tokens. -/
structure Line where
  currentLineLength : UInt64
  currentIndentLevel : UInt64
  currentAllowNewline : Bool

/-- The flags of a token. -/
structure Flags where
  newlineBefore : Bool
  newlineAfter : Bool
  indentAfter : Bool
  undentBefore : Bool

namespace Flags

def none : Flags := ⟨false, false, false, false⟩

/-- `NewlineAfter | IndentAfter`. -/
def opening : Flags := ⟨false, true, true, false⟩

/-- `NewlineAfter`. -/
def separator : Flags := ⟨false, true, false, false⟩

/-- `NewlineBefore | UndentBefore`. -/
def closing : Flags := ⟨true, false, false, true⟩

end Flags

/-- A part of the writer's work: what it writes, and the state it leaves. -/
abbrev Emit := Line → Bytes × Line

def Emit.seq (first second : Emit) : Emit := fun line =>
  ((first line).1 ++ (second (first line).2).1, (second (first line).2).2)

def Emit.skip : Emit := fun line => ([], line)

theorem Emit.seq_assoc (a b c : Emit) : (a.seq b).seq c = a.seq (b.seq c) := by
  funext line
  simp [Emit.seq]

theorem Emit.skip_seq (a : Emit) : Emit.skip.seq a = a := by
  funext line
  simp [Emit.seq, Emit.skip]

/-- A line break with its indentation, which the source writes in pieces of at most 128 blanks. -/
def newline (indentLevel : UInt64) : Bytes := 10 :: List.replicate indentLevel.toNat 32

namespace Writer

def write (layout : Layout) (str : Bytes) (flags : Flags) : Emit := fun line =>
  let size := UInt64.ofNat str.length
  let indentLevel := if flags.undentBefore then line.currentIndentLevel - layout.indentStep
    else line.currentIndentLevel
  let breaks := (flags.newlineBefore || line.currentAllowNewline) &&
    (0 < layout.indentStep || (layout.lineLength != 0 && layout.lineLength < line.currentLineLength + size))
  let lineLength := if breaks then indentLevel else line.currentLineLength
  ((if breaks then newline indentLevel else []) ++ str,
    { currentLineLength := lineLength + size
      currentIndentLevel := if flags.indentAfter then indentLevel + layout.indentStep else indentLevel
      currentAllowNewline := flags.newlineAfter })

/-- `HEX_DIGITS_UPPER`. -/
def hexDigit (d : Nat) : UInt8 := UInt8.ofNat (if d < 10 then 48 + d else 55 + d)

/-- `Format("%04X", n)`. -/
def formatHex4 (n : Nat) : Bytes :=
  let digits := if n = 0 then [48] else (Nat.digits 16 n).reverse.map hexDigit
  List.replicate (4 - digits.length) 48 ++ digits

def escape (ch : UInt8) : Bytes :=
  if ch = 92 then [92, 92]
  else if ch = 34 then [92, 34]
  else if 32 ≤ ch then [ch]
  else if ch = 10 then lit "\\n"
  else if ch = 13 then lit "\\r"
  else if ch = 8 then lit "\\b"
  else if ch = 9 then lit "\\t"
  else if ch = 12 then lit "\\f"
  else lit "\\u" ++ formatHex4 ch.toNat

/-- The text that `visitString` builds. -/
def quote (str : Bytes) : Bytes := 34 :: str.flatMap escape ++ [34]

def visitString (layout : Layout) (str : Bytes) : Emit := write layout (quote str) .none

def separate (layout : Layout) (first : Bool) : Emit := if first then Emit.skip else write layout [44] .separator

mutual

def visit (layout : Layout) : Value → Emit
  | .null => write layout (lit "null") .none
  | .string str => visitString layout str
  | .integer iv => write layout (decimal iv.toInt) .none
  | .float text _ => write layout text .none
  | .boolean bv => write layout (if bv then lit "true" else lit "false") .none
  | .hash entries =>
    ((write layout [123] .opening).seq (visitEntries layout true entries)).seq (write layout [125] .closing)
  | .vector elements =>
    ((write layout [91] .opening).seq (visitElements layout true elements)).seq (write layout [93] .closing)
  | .error _ _ => write layout (lit "null") .none
  | .other => write layout (lit "null") .none

/-- The loop of `visitHash`. -/
def visitEntries (layout : Layout) : Bool → List (Bytes × Value) → Emit
  | _, [] => Emit.skip
  | first, entry :: entries =>
    ((separate layout first).seq (visitEntry layout entry)).seq
      (visitEntries layout false entries)

def visitEntry (layout : Layout) : Bytes × Value → Emit
  | (key, v) => ((visitString layout key).seq (write layout [58] .none)).seq (visit layout v)

/-- The loop of `visitVector`. -/
def visitElements (layout : Layout) : Bool → List Value → Emit
  | _, [] => Emit.skip
  | first, v :: elements =>
    ((separate layout first).seq (visit layout v)).seq
      (visitElements layout false elements)

end

def text (layout : Layout) (v : Value) : Bytes := (visit layout v ⟨0, 0, false⟩).1

end Writer

end Afl.Io.Json
