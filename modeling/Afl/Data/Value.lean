import Afl.String.Parse

/-!
# Values, `Access` and `SegmentView`

`afl::data::Value` and its subclasses, the conversions of `Access`, and the argument reader `SegmentView`.
A null `Value*` is the constructor `null`.
-/

namespace Afl

/-- The exceptions of the modelled code, with the texts they carry. -/
inductive Exception
  | remoteError (source message : Bytes)
  | invalidData (message : Bytes)
  | fileFormat (source message : Bytes)
  | fileTooShort (source : Bytes)
  | runtimeError (message : Bytes)
deriving DecidableEq

def Exception.what : Exception → Bytes
  | remoteError _ message => message
  | invalidData message => message
  | fileFormat _ message => message
  | fileTooShort _ => lit "File too short"
  | runtimeError message => message

/-- A `Value*`. A `FloatValue` is seen by this code only through `Format("%.25g")` and the cast to
`int32_t`, so these two observations stand for it. -/
inductive Value
  | null
  | string (str : Bytes)
  | integer (iv : Int32)
  | float (text : Bytes) (cast : Int32)
  | boolean (bv : Bool)
  | hash (entries : List (Bytes × Value))
  | vector (elements : List Value)
  | error (source str : Bytes)
  | other

/-- `Segment`: a list of value pointers. -/
abbrev Segment := List Value

namespace Value

mutual

/-- `Access::toString`. -/
def toStr : Value → Except Exception Bytes
  | null => .ok []
  | string str => .ok str
  | integer iv => .ok (decimal iv.toInt)
  | float text _ => .ok text
  | boolean bv => .ok (if bv then lit "true" else lit "false")
  | hash _ => .ok (lit "<hash>")
  | vector elements => toStrList elements
  | error source str => .error (.remoteError source str)
  | other => .ok (lit "<value>")

/-- The loop of `visitVector`: the elements' texts, separated by commas. -/
def toStrList : List Value → Except Exception Bytes
  | [] => .ok []
  | [v] => toStr v
  | v :: w :: rest =>
    match toStr v with
    | .error e => .error e
    | .ok s =>
      match toStrList (w :: rest) with
      | .error e => .error e
      | .ok t => .ok (s ++ lit "," ++ t)

end

def toInteger : Value → Except Exception Int32
  | null => .ok 0
  | string str =>
    if str = [] then .ok 0
    else
      match strToInt32 str with
      | some iv => .ok iv
      | none => .error (.invalidData (lit "Invalid number"))
  | integer iv => .ok iv
  | float _ cast => .ok cast
  | boolean bv => .ok (if bv then 1 else 0)
  | error source str => .error (.remoteError source str)
  | hash _ | vector _ | other => .error (.invalidData (lit "Invalid number"))

/-- `SegmentView::eat(String_t&)` on the element it meets: a null element leaves `value` unmodified. -/
def eatString : Value → Bytes → Except Exception Bytes
  | null, value => .ok value
  | v, _ => v.toStr

/-- `SegmentView::eat(int32_t&)` on the element it meets. -/
def eatInteger : Value → Int32 → Except Exception Int32
  | null, value => .ok value
  | v, _ => v.toInteger

end Value

end Afl
