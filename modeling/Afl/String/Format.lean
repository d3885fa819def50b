import Afl.Base.Bytes
import Mathlib.Data.Finset.Basic

/-!
# Formatting

`afl/string/format.cpp` and `formatstate.cpp`. An argument is the function that `FormatTraits` has for its type, applied to
the value. A position in the format string is the rest from there on.
-/

namespace Afl.Format

/-! ### The state of a placeholder -/

/-- `FormatState::Flag`. -/
inductive FormatFlag
  | alternate
  | zeroPad
  | leftJust
  | blank
  | sign
  | group
  | precision
deriving DecidableEq

/-- All but the conditions is reset before each placeholder. Conditions 0 and 1 are `ZeroCondition` and `OneCondition`. -/
structure FormatState where
  code : UInt8
  width : UInt64
  precision : UInt64
  flags : Finset FormatFlag
  conditions : Finset (Fin 32)

abbrev Formatter := FormatState → Bytes × FormatState

/-- `setNumberConditions`: leading zeroes do not count, neither does what is not a digit. -/
def FormatState.setNumberConditions (state : FormatState) (data : Bytes) : FormatState :=
  let p := (data.takeWhile (· ≠ 0)).dropWhile fun c => ¬(49 ≤ c ∧ c ≤ 57)
  let digits := p.filter fun c => 48 ≤ c ∧ c ≤ 57
  let others := state.conditions \ {0, 1}
  { state with conditions := if digits = [] then insert 0 others else if digits = [49] then insert 1 others else others }

def formatToString (str : Bytes) : Formatter := fun state =>
  let state := if state.code = 100 ∨ state.code = 105 then state.setNumberConditions str else state
  (if .precision ∈ state.flags ∧ state.precision.toNat < str.length then str.take state.precision.toNat else str, state)

/-! ### Integers -/

/-- The base that `formatUnsigned` writes for a code. -/
def formatBase (typ : UInt8) : Nat := if typ = 111 then 8 else if typ = 120 ∨ typ = 88 then 16 else 10

/-- `HEX_DIGITS_UPPER` for `X`, else `HEX_DIGITS_LOWER`. -/
def formatAlpha (typ : UInt8) : Bytes := if typ = 88 then lit "0123456789ABCDEF" else lit "0123456789abcdef"

theorem one_lt_formatBase (typ : UInt8) : 1 < formatBase typ := by
  rw [formatBase]
  split_ifs <;> decide

/-- The loop of `formatUnsigned`, which fills its buffer from the end. -/
def formatDigits (typ : UInt8) (c : Nat) (p : Bytes) : Bytes :=
  if _h : c = 0 then p
  else formatDigits typ (c / formatBase typ) ((formatAlpha typ).getD (c % formatBase typ) 0 :: p)
termination_by c
decreasing_by exact Nat.div_lt_self (Nat.pos_of_ne_zero _h) (one_lt_formatBase typ)

def formatUnsigned (c : UInt64) (typ : UInt8) : Bytes :=
  let p := formatDigits typ c.toNat []
  if p = [] then [48] else p

/-- A comma before each group of three, starting from the last. -/
def addGrouping (s : Bytes) (start : Nat) : Bytes :=
  if 3 < start then addGrouping (s.take (start - 3) ++ 44 :: s.drop (start - 3)) (start - 3) else s
termination_by start

def FormatState.setCondition (state : FormatState) (which : Fin 32) (value : Bool) : FormatState :=
  { state with conditions := if value then insert which state.conditions else state.conditions.erase which }

def zeroFill (n : Nat) (value : Bytes) : Bytes := List.replicate (n - value.length) 48 ++ value

def alternateForm (code : UInt8) (value : Bytes) : Bytes :=
  if code = 111 then if value.head? ≠ some 48 then 48 :: value else value
  else if code = 120 then lit "0x" ++ value
  else if code = 88 then lit "0X" ++ value
  else value

def FormatUnsigned.format (value : UInt64) : Formatter := fun state =>
  let state := (state.setCondition 0 (value = 0)).setCondition 1 (value = 1)
  if state.code = 99 then ([value.toUInt8], state)
  else
    let text := formatUnsigned value state.code
    let text := if .precision ∈ state.flags then zeroFill state.precision.toNat text else text
    let text := if .group ∈ state.flags then addGrouping text text.length else text
    let text := if .alternate ∈ state.flags then alternateForm state.code text else text
    let wi := if .blank ∈ state.flags ∨ .sign ∈ state.flags then state.width.toNat - 1 else state.width.toNat
    let text := if .zeroPad ∈ state.flags then zeroFill wi text else text
    (if .sign ∈ state.flags then 43 :: text else if .blank ∈ state.flags then 32 :: text else text, state)

/-- `FormatSigned::format`: a negative number is formatted with the plus sign that is then overwritten. The negation wraps. -/
def FormatSigned.format (value : Int64) : Formatter := fun state =>
  if (state.code ≠ 100 ∧ state.code ≠ 105) ∨ 0 ≤ value then FormatUnsigned.format value.toUInt64 state
  else
    let (result, state) := FormatUnsigned.format (-value).toUInt64 { state with flags := insert .sign state.flags }
    (result.set (result.findIdx (· = 43)) 45, state)

theorem formatDigits_decimal (n : Nat) (p : Bytes) :
    formatDigits 100 n p = (if n = 0 then [] else decimalNat n) ++ p := by
  induction n using Nat.strong_induction_on generalizing p with
  | _ n ih =>
    have hdigit : ∀ d < 10, (formatAlpha 100).getD d 0 = UInt8.ofNat (48 + d) := by decide
    rw [formatDigits]
    split_ifs with hn
    · rfl
    · have hbase : formatBase 100 = 10 := rfl
      rw [hbase, ih (n / 10) (by omega), hdigit _ (Nat.mod_lt n (by decide))]
      split_ifs with hlead
      · rw [decimalNat_of_lt (by omega), Nat.mod_eq_of_lt (by omega)]
        rfl
      · rw [decimalNat_of_le (n := n) (by omega), List.append_assoc]
        rfl

theorem formatUnsigned_decimal (c : UInt64) : formatUnsigned c 100 = decimalNat c.toNat := by
  rw [formatUnsigned, formatDigits_decimal, List.append_nil]
  by_cases hzero : c.toNat = 0
  · rw [if_pos hzero, hzero]
    rfl
  · have hne : decimalNat c.toNat ≠ [] := by
      rw [decimalNat, if_neg hzero]
      simpa [Nat.digits_ne_nil_iff_ne_zero] using hzero
    rw [if_neg hzero, if_neg hne]

theorem FormatUnsigned.format_decimal (value : UInt64) (conditions : Finset (Fin 32)) :
    (FormatUnsigned.format value ⟨100, 0, 0, ∅, conditions⟩).1 = decimalNat value.toNat := by
  have hcode : (100 : UInt8) ≠ 99 := by decide
  simp only [FormatUnsigned.format, FormatState.setCondition, if_neg hcode, Finset.notMem_empty, if_false, or_self,
    formatUnsigned_decimal]

theorem FormatSigned.format_decimal (value : Int64) (conditions : Finset (Fin 32)) :
    (FormatSigned.format value ⟨100, 0, 0, ∅, conditions⟩).1 = decimal value.toInt := by
  have hcode : (100 : UInt8) ≠ 99 := by decide
  rw [FormatSigned.format, decimal]
  by_cases hneg : 0 ≤ value
  · have hvalue : 0 ≤ value.toInt := Int64.le_iff_toInt_le.mp hneg
    have habs : value.toUInt64.toNat = value.toInt.natAbs := by
      rw [← Int64.toInt_toBitVec, BitVec.toInt_eq_toNat_cond] at hvalue ⊢
      rw [← Int64.toNat_toBitVec]
      have hlt := value.toBitVec.isLt
      split_ifs at hvalue ⊢ <;> omega
    rw [if_pos (.inr hneg), FormatUnsigned.format_decimal, if_neg (by omega), habs]
  · have hvalue : value.toInt < 0 := Int64.lt_iff_toInt_lt.mp (Int64.not_le.mp hneg)
    have habs : (-value).toUInt64.toNat = value.toInt.natAbs := by
      rw [← Int64.toInt_toBitVec, BitVec.toInt_eq_toNat_cond] at hvalue ⊢
      rw [← Int64.toNat_toBitVec, Int64.toBitVec_neg, BitVec.toNat_neg]
      have hlt := value.toBitVec.isLt
      split_ifs at hvalue ⊢ <;> omega
    rw [if_neg (by simpa using hneg), if_pos hvalue]
    simp only [FormatUnsigned.format, FormatState.setCondition, if_neg hcode, formatUnsigned_decimal, habs,
      Finset.mem_insert, Finset.notMem_empty, reduceCtorEq, or_false, if_false, if_true]
    rfl

/-! ### Parsing -/

/-- What is parsed after a percent sign. The index is that of the last `index$`. -/
structure Directive where
  index : Option UInt64
  shown : Bool
  flags : Finset FormatFlag
  width : UInt64
  precision : UInt64
  code : UInt8
deriving DecidableEq

def flagOf (c : UInt8) : Option FormatFlag :=
  if c = 35 then some .alternate
  else if c = 48 then some .zeroPad
  else if c = 45 then some .leftJust
  else if c = 32 then some .blank
  else if c = 43 then some .sign
  else if c = 39 then some .group
  else none

/-- The flags; an exclamation mark among them means that the value is not shown. -/
def readFlags (flags : Finset FormatFlag) (shown : Bool) : Bytes → Finset FormatFlag × Bool × Bytes
  | [] => (flags, shown, [])
  | c :: p =>
    match flagOf c with
    | some flag => readFlags (insert flag flags) shown p
    | none => if c = 33 then readFlags flags false p else (flags, shown, c :: p)

def readNumber (n : UInt64) : Bytes → UInt64 × Bytes
  | [] => (n, [])
  | c :: p => if 48 ≤ c ∧ c ≤ 57 then readNumber (10 * n + (c - 48).toUInt64) p else (n, c :: p)

theorem length_readFlags (flags : Finset FormatFlag) (shown : Bool) (p : Bytes) :
    (readFlags flags shown p).2.2.length ≤ p.length := by
  fun_induction readFlags flags shown p with
  | case1 => exact Nat.le_refl _
  | case2 flags shown c p flag hflag ih => exact Nat.le_succ_of_le ih
  | case3 flags shown p hflag ih => exact Nat.le_succ_of_le ih
  | case4 => exact Nat.le_refl _

theorem length_readNumber (n : UInt64) (p : Bytes) : (readNumber n p).2.length ≤ p.length := by
  fun_induction readNumber n p with
  | case1 => exact Nat.le_refl _
  | case2 n c p hdigit ih => exact Nat.le_succ_of_le ih
  | case3 => exact Nat.le_refl _

def readPrecision (flags : Finset FormatFlag) : Bytes → UInt64 × Finset FormatFlag × Bytes
  | [] => (0, flags, [])
  | c :: p => if c = 46 then ((readNumber 0 p).1, insert .precision flags, (readNumber 0 p).2) else (0, flags, c :: p)

theorem length_readPrecision (flags : Finset FormatFlag) (p : Bytes) : (readPrecision flags p).2.2.length ≤ p.length := by
  fun_cases readPrecision flags p with
  | case1 => exact Nat.le_refl _
  | case2 => exact Nat.le_succ_of_le (length_readNumber 0 _)
  | case3 => exact Nat.le_refl _

/-- A directive and what follows it, or nothing if the string ends in it. -/
def readDirective (index : Option UInt64) (shown : Bool) (p : Bytes) : Option (Directive × Bytes) :=
  match _hflags : readFlags ∅ shown p with
  | (flags, shown', p₁) =>
    match _hwidth : readNumber 0 p₁ with
    | (_, []) => none
    | (width, c :: p₂) =>
      -- `index$`: start over, but a value stays hidden
      if c = 36 then readDirective (some width) shown' p₂
      else
        match readPrecision flags (c :: p₂) with
        | (_, _, []) => none
        | (precision, flags, code :: rest) => some (⟨index, shown', flags, width, precision, code⟩, rest)
termination_by p.length
decreasing_by
  have hflags := length_readFlags ∅ shown p
  have hwidth := length_readNumber 0 p₁
  rw [_hflags] at hflags
  rw [_hwidth, List.length_cons] at hwidth
  dsimp only at hflags hwidth
  omega

theorem length_readDirective {index : Option UInt64} {shown : Bool} {p rest : Bytes} {d : Directive}
    (h : readDirective index shown p = some (d, rest)) : rest.length < p.length := by
  induction hn : p.length using Nat.strong_induction_on generalizing index shown p with
  | _ n ih =>
    rw [readDirective] at h
    have hflags := length_readFlags ∅ shown p
    split at h
    next flags shown' p₁ hp₁ =>
    have hwidth := length_readNumber 0 p₁
    rw [hp₁] at hflags
    split at h
    · cases h
    · next width c p₂ hp₂ =>
      rw [hp₂, List.length_cons] at hwidth
      dsimp only at hflags hwidth
      split_ifs at h with hc
      · have hrest := ih p₂.length (by omega) h rfl
        omega
      · have hprecision := length_readPrecision flags (c :: p₂)
        split at h
        · cases h
        · next precision allFlags code rest' hp₃ =>
          rw [hp₃, List.length_cons, List.length_cons] at hprecision
          cases h
          omega

/-! ### Formatting -/

/-- What formatting has led to: the text, the next argument, the conditions, and which argument each placeholder was given
(there may be none). -/
structure Output where
  result : Bytes
  argIndex : Nat
  conditions : Finset (Fin 32)
  given : List (Option Nat)

namespace Output

def start : Output := ⟨[], 0, ∅, []⟩

def append (o : Output) (text : Bytes) : Output := { o with result := o.result ++ text }

def setIndex (o : Output) (d : Directive) : Output := { o with argIndex := d.index.elim o.argIndex UInt64.toNat }

def insertPadded (o : Output) (d : Directive) (flags : Finset FormatFlag) (here : Bytes) : Output :=
  let padding := List.replicate (d.width.toNat - here.length) 32
  if d.shown then o.append (if .leftJust ∈ flags then here ++ padding else padding ++ here) else o

def placeholder (args : List Formatter) (o : Output) (d : Directive) : Output :=
  if d.code = 37 then o.insertPadded d d.flags [37]
  else
    match args[o.argIndex]? with
    | none => { o with given := o.given ++ [none] }.insertPadded d d.flags (lit "<invalid>")
    | some format =>
      let (here, state) := format ⟨d.code, d.width, d.precision, d.flags, o.conditions⟩
      { o with argIndex := o.argIndex + 1, conditions := state.conditions, given := o.given ++ [some o.argIndex] }.insertPadded d
        state.flags here

end Output

def Directive.condition (d : Directive) : Fin 32 := Fin.ofNat 32 d.width.toNat

/-- The variables of the loop. -/
structure Rendering extends Output where
  conditionState : UInt32
  conditionLevel : UInt32

namespace Rendering

def start : Rendering := ⟨.start, 0, 0⟩

def text (s : Rendering) (text : Bytes) : Rendering :=
  if s.conditionState = 0 then { s with toOutput := s.toOutput.append text } else s

def startCondition (s : Rendering) (d : Directive) : Rendering :=
  let conditionState := s.conditionState <<< 1
  let shown := if d.condition ∈ s.conditions then !d.shown else d.shown
  { s with
    conditionLevel := s.conditionLevel + 1
    conditionState := if shown then conditionState ||| 1 else conditionState }

def switchCondition (s : Rendering) : Rendering :=
  if s.conditionLevel ≠ 0 then { s with conditionState := s.conditionState ^^^ 1 } else s

def endCondition (s : Rendering) : Rendering :=
  if s.conditionState ≠ 0 then
    { s with conditionState := s.conditionState >>> 1, conditionLevel := s.conditionLevel - 1 }
  else s

def placeholder (args : List Formatter) (s : Rendering) (d : Directive) : Rendering :=
  if s.conditionState = 0 then { s with toOutput := s.toOutput.placeholder args d } else s

/-- The index has been set when the code is reached. -/
def directive (args : List Formatter) (s : Rendering) (d : Directive) : Rendering :=
  let s := { s with toOutput := s.toOutput.setIndex d }
  if d.code = 123 then s.startCondition d
  else if d.code = 124 then s.switchCondition
  else if d.code = 125 then s.endCondition
  else s.placeholder args d

/-- The loop; the rest of the string is always output. -/
def loop (args : List Formatter) (s : Rendering) (p : Bytes) : Rendering :=
  match _h : p.findIdx? (· = 37) with
  | none => { s with toOutput := s.toOutput.append p }
  | some n =>
    let s := s.text (p.take n)
    match _hd : readDirective none true (p.drop (n + 1)) with
    | none => s
    | some (d, rest) => loop args (s.directive args d) rest
termination_by p.length
decreasing_by
  have hrest := length_readDirective _hd
  rw [List.length_drop] at hrest
  omega

theorem loop_unfold (args : List Formatter) (s : Rendering) (p : Bytes) :
    s.loop args p =
      match p.findIdx? (· = 37) with
      | none => { s with toOutput := s.toOutput.append p }
      | some n =>
        match readDirective none true (p.drop (n + 1)) with
        | none => s.text (p.take n)
        | some (d, rest) => ((s.text (p.take n)).directive args d).loop args rest := by
  rw [loop]
  split
  · next hnone => rw [hnone]
  · next n hsome =>
    rw [hsome]
    dsimp only
    split
    · next hd => rw [hd]
    · next d rest hd => rw [hd]

end Rendering

/-- `operator String_t`, with the arguments that have been formatted. The format string ends at a null byte. -/
def format (fmt : Bytes) (args : List Formatter) : Output := (Rendering.start.loop args (fmt.takeWhile (· ≠ 0))).toOutput

theorem readDirective_d : readDirective none true [100] = some (⟨none, true, ∅, 0, 0, 100⟩, []) := by
  rw [readDirective]
  rfl

theorem format_d (f : Formatter) : (format (lit "%d") [f]).result = (f ⟨100, 0, 0, ∅, ∅⟩).1 := by
  have htext : (lit "%d").takeWhile (· ≠ 0) = [37, 100] := by decide
  have hfind : ([37, 100] : Bytes).findIdx? (· = 37) = some 0 := by decide
  have hnone : ([] : Bytes).findIdx? (· = 37) = none := rfl
  rw [format, htext, Rendering.loop_unfold, hfind]
  simp only [List.drop_succ_cons, List.drop_zero, readDirective_d, Rendering.loop_unfold _ _ [], hnone]
  simp [Rendering.directive, Rendering.text, Rendering.placeholder, Rendering.start, Output.start, Output.placeholder,
    Output.insertPadded, Output.append, Output.setIndex]

end Afl.Format
