import Afl.Data.Value

/-!
# The RESP writer

`afl/io/resp/writer.cpp`: what the visitor writes to its sink. Numbers and booleans are written as strings, a
hash as the vector of its keys and values in turn, and of an error only the first line.
-/

namespace Afl.Io.Resp.Writer

def crlf : Bytes := lit "\r\n"

def visitString (str : Bytes) : Bytes := lit "$" ++ decimalNat str.length ++ crlf ++ str ++ crlf

def visitNull : Bytes := lit "$-1\r\n"

/-- A value that cannot be serialized becomes a null array. -/
def visitOther : Bytes := lit "*-1\r\n"

/-- `str.find_first_of("\r\n")` cuts the text. -/
def visitError (str : Bytes) : Bytes := lit "-" ++ str.takeWhile (fun c => c ≠ 13 ∧ c ≠ 10) ++ crlf

def sendError (str : Bytes) : Bytes := visitError str

def arrayHeader (n : Nat) : Bytes := lit "*" ++ decimalNat n ++ crlf

mutual

def visit : Value → Bytes
  | .null => visitNull
  | .string str => visitString str
  | .integer iv => visitString (decimal iv.toInt)
  | .float text _ => visitString text
  | .boolean bv => visitString (if bv then lit "1" else lit "0")
  | .hash entries => arrayHeader (2 * entries.length) ++ visitEntries entries
  | .vector elements => arrayHeader elements.length ++ visitElements elements
  | .error _ str => visitError str
  | .other => visitOther

/-- The loop of `visitHash`. -/
def visitEntries : List (Bytes × Value) → Bytes
  | [] => []
  | entry :: entries => visitEntry entry ++ visitEntries entries

def visitEntry : Bytes × Value → Bytes
  | (key, v) => visitString key ++ visit v

/-- The loop of `visitSegment`. -/
def visitElements : List Value → Bytes
  | [] => []
  | v :: elements => visit v ++ visitElements elements

end

def visitSegment (seg : Segment) : Bytes := arrayHeader seg.length ++ visitElements seg

theorem visit_ne_nil (v : Value) : visit v ≠ [] := by
  cases v <;> simp [visit, visitNull, visitOther, visitString, visitError, arrayHeader, lit]

theorem sendError_ne_nil (str : Bytes) : sendError str ≠ [] := by
  simp [sendError, visitError, lit]

end Afl.Io.Resp.Writer
