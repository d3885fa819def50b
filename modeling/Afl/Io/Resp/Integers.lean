import Afl.Io.Resp.Chunks
import Afl.String.ParseMemory

/-!
# RESP integers

What `IntState` makes of a sign and digits: the tests in front of each digit keep the value, and everything that is
computed for them, within `int32_t`, and refuse exactly what does not fit.
-/

namespace Afl.Io.Resp

open Feed

namespace IntState

/-- An `int32_t` result, unless it overflows. -/
def checked (i : Int) : Option Int := if -2147483648 ≤ i ∧ i ≤ 2147483647 then some i else none

/-- The test in front of a digit; the last comparison is made only if the others have not decided it. -/
def refuses (phase : Phase) (value digit : Int) : Option Bool :=
  if phase = .negative ∨ phase = .negativeDigits then
    if value < -214748364 then some true
    else if value ≠ 0 then do
      let product ← checked (10 * value)
      let room ← checked (product - -2147483648)
      return room < digit
    else some false
  else
    if value > 214748364 then some true
    else do
      let product ← checked (10 * value)
      let room ← checked (2147483647 - product)
      return room < digit

/-- `addDigit` as it is computed in `int32_t`; `none` is an overflow. -/
def addDigitChecked (phase : Phase) (value digit : Int) : Option (Option (Phase × Int)) := do
  if ← refuses phase value digit then return none
  let product ← checked (10 * value)
  if phase = .negative ∨ phase = .negativeDigits then
    let next ← checked (product - digit)
    return some (.negativeDigits, next)
  else
    let next ← checked (product + digit)
    return some (.positiveDigits, next)

/-! ### One digit -/

def isNegative (phase : Phase) : Bool := phase = .negative ∨ phase = .negativeDigits

/-- The greatest number of this sign, and what it stands for. -/
def limit (negative : Bool) : Nat := if negative then 2147483648 else 2147483647

def signed (negative : Bool) (a : Nat) : Int := if negative then -a else a

def digits (negative : Bool) : Phase := if negative then .negativeDigits else .positiveDigits

/-- The sign is decided before the first digit. -/
structure Signed (phase : Phase) (value : Int) : Prop where
  negative : isNegative phase = true → value ≤ 0
  positive : isNegative phase = false → 0 ≤ value
  virgin : phase = .virgin → value = 0

variable {phase : Phase}

variable {value : Int}

theorem Signed.of_negative (hphase : isNegative phase = true) (hvalue : value ≤ 0) :
    Signed phase value where
  negative _ := hvalue
  positive hpos := absurd (hphase.symm.trans hpos) (by decide)
  virgin hvirgin := absurd (hvirgin ▸ hphase) (by decide)

theorem Signed.of_positive (hphase : isNegative phase = false) (hstart : phase ≠ .virgin)
    (hvalue : 0 ≤ value) : Signed phase value where
  negative hneg := absurd (hphase.symm.trans hneg) (by decide)
  positive _ := hvalue
  virgin hvirgin := absurd hvirgin hstart

theorem checked_some {i : Int} (hlow : -2147483648 ≤ i) (hhigh : i ≤ 2147483647) : checked i = some i :=
  if_pos ⟨hlow, hhigh⟩

variable {negative : Bool}

theorem addDigit_eq (hphase : isNegative phase = negative) {a d : Nat} (ha : a ≤ limit negative) (hd : d ≤ 9) :
    addDigit phase (signed negative a) d =
      if 10 * a + d ≤ limit negative then some (digits negative, signed negative (10 * a + d)) else none := by
  cases negative with
  | true =>
    have hneg : phase = .negative ∨ phase = .negativeDigits := of_decide_eq_true hphase
    simp only [limit, signed, digits, if_true] at ha ⊢
    rw [addDigit, if_pos hneg]
    by_cases hfits : 10 * a + d ≤ 2147483648
    · rw [if_pos hfits, if_neg (by omega)]
      congr 2
      push_cast
      omega
    · rw [if_neg hfits, if_pos (by omega)]
  | false =>
    have hpos : ¬(phase = .negative ∨ phase = .negativeDigits) := of_decide_eq_false hphase
    simp only [limit, signed, digits, Bool.false_eq_true, if_false] at ha ⊢
    rw [addDigit, if_neg hpos]
    by_cases hfits : 10 * a + d ≤ 2147483647
    · rw [if_pos hfits, if_neg (by omega)]
      congr 2
    · rw [if_neg hfits, if_pos (by omega)]

theorem addDigitChecked_of_refuses {value digit : Int} (h : refuses phase value digit = some true) :
    addDigitChecked phase value digit = some none := by
  rw [addDigitChecked, h]
  rfl

theorem addDigitChecked_negative (hphase : phase = .negative ∨ phase = .negativeDigits)
    (hvalue : value ≤ 0) {digit : Int} (hlow : 0 ≤ digit) (hhigh : digit ≤ 9) :
    addDigitChecked phase value digit = some (addDigit phase value digit) := by
  rw [addDigit, if_pos hphase]
  by_cases hlarge : value < -214748364
  · rw [if_pos (.inl hlarge)]
    refine addDigitChecked_of_refuses ?_
    rw [refuses, if_pos hphase, if_pos hlarge]
  have hproduct : checked (10 * value) = some (10 * value) := checked_some (by omega) (by omega)
  have hrefuses : refuses phase value digit = some (decide (value ≠ 0 ∧ 10 * value - -2147483648 < digit)) := by
    rw [refuses, if_pos hphase, if_neg hlarge]
    by_cases hzero : value = 0
    · rw [if_neg (not_not_intro hzero), decide_eq_false fun h => h.1 hzero]
    · have hroom : checked (10 * value - -2147483648) = some (10 * value - -2147483648) :=
        checked_some (by omega) (by omega)
      rw [if_pos hzero, hproduct, Option.bind_eq_bind, Option.bind_some, hroom]
      simp [hzero]
  by_cases hroom : value ≠ 0 ∧ 10 * value - -2147483648 < digit
  · rw [decide_eq_true hroom] at hrefuses
    rw [if_pos (.inr hroom), addDigitChecked_of_refuses hrefuses]
  · have hnext : checked (10 * value - digit) = some (10 * value - digit) := checked_some (by omega) (by omega)
    rw [decide_eq_false hroom] at hrefuses
    rw [if_neg (not_or.mpr ⟨hlarge, hroom⟩), addDigitChecked, hrefuses, hproduct]
    simp only [Option.bind_eq_bind, Option.bind_some, if_pos hphase, hnext]
    rfl

theorem addDigitChecked_positive (hphase : ¬(phase = .negative ∨ phase = .negativeDigits))
    (hvalue : 0 ≤ value) {digit : Int} (hlow : 0 ≤ digit) (hhigh : digit ≤ 9) :
    addDigitChecked phase value digit = some (addDigit phase value digit) := by
  rw [addDigit, if_neg hphase]
  by_cases hlarge : value > 214748364
  · rw [if_pos (.inl hlarge)]
    refine addDigitChecked_of_refuses ?_
    rw [refuses, if_neg hphase, if_pos hlarge]
  have hproduct : checked (10 * value) = some (10 * value) := checked_some (by omega) (by omega)
  have hroom : checked (2147483647 - 10 * value) = some (2147483647 - 10 * value) := checked_some (by omega) (by omega)
  have hrefuses : refuses phase value digit = some (decide (2147483647 - 10 * value < digit)) := by
    rw [refuses, if_neg hphase, if_neg hlarge, hproduct, Option.bind_eq_bind, Option.bind_some, hroom]
    rfl
  by_cases hless : 2147483647 - 10 * value < digit
  · rw [decide_eq_true hless] at hrefuses
    rw [if_pos (.inr hless), addDigitChecked_of_refuses hrefuses]
  · have hnext : checked (10 * value + digit) = some (10 * value + digit) := checked_some (by omega) (by omega)
    rw [decide_eq_false hless] at hrefuses
    rw [if_neg (not_or.mpr ⟨hlarge, hless⟩), addDigitChecked, hrefuses, hproduct]
    simp only [Option.bind_eq_bind, Option.bind_some, if_neg hphase, hnext]
    rfl

/-- **No overflow.** What is computed for a digit fits. -/
theorem addDigitChecked_eq (h : Signed phase value) {digit : Int} (hlow : 0 ≤ digit)
    (hhigh : digit ≤ 9) : addDigitChecked phase value digit = some (addDigit phase value digit) := by
  by_cases hphase : phase = .negative ∨ phase = .negativeDigits
  · exact addDigitChecked_negative hphase (h.negative (decide_eq_true hphase)) hlow hhigh
  · exact addDigitChecked_positive hphase (h.positive (decide_eq_false hphase)) hlow hhigh

theorem Signed.addDigit {phase phase' : Phase} {value value' digit : Int} (h : Signed phase value) (hdigit : 0 ≤ digit)
    (hadd : addDigit phase value digit = some (phase', value')) : Signed phase' value' := by
  rw [IntState.addDigit] at hadd
  split_ifs at hadd with hphase
  · cases hadd
    have hvalue := h.negative (decide_eq_true hphase)
    exact .of_negative rfl (by omega)
  · cases hadd
    have hvalue := h.positive (decide_eq_false hphase)
    exact .of_positive rfl (by decide) (by omega)

theorem finish_ne_int {kind : Kind} {s : State} (h : finish kind value = .next s) (kind' : Kind)
    (phase : Phase) (value' : Int) : s ≠ .int kind' phase value' := by
  rintro rfl
  cases kind with
  | integer => cases h
  | bulk =>
    simp only [finish] at h
    split_ifs at h
    cases h
  | array =>
    simp only [finish] at h
    split_ifs at h
    cases h

theorem Signed.handleData {kind kind' : Kind} {phase phase' : Phase} {value value' : Int} {data rest : Bytes}
    (h : Signed phase value) (hdata : handleData kind phase value data = .more (.int kind' phase' value') rest) :
    Signed phase' value' := by
  induction data generalizing phase value with
  | nil =>
    rw [IntState.handleData] at hdata
    cases hdata
    exact h
  | cons ch data ih =>
    rw [IntState.handleData] at hdata
    split_ifs at hdata with hplus hvirgin hminus hvirgin hdigit hreturn hnewline hdigits
    · have hzero := h.virgin (not_not.mp hvirgin)
      exact ih (.of_positive rfl (by decide) hzero.ge) hdata
    · have hzero := h.virgin (not_not.mp hvirgin)
      exact ih (.of_negative rfl hzero.le) hdata
    · rcases hadd : IntState.addDigit phase value (ch.toNat - 48) with _ | ⟨phase₁, value₁⟩
      · rw [hadd] at hdata
        cases hdata
      · rw [hadd] at hdata
        have hch : (48 : Int) ≤ ch.toNat := Int.ofNat_le.mpr (UInt8.le_iff_toNat_le.mp hdigit.1)
        exact ih (h.addDigit (by omega) hadd) hdata
    · exact ih h hdata
    · rcases hfinish : finish kind value with s | v | _
      · rw [hfinish] at hdata
        cases hdata
        exact absurd rfl (finish_ne_int hfinish _ _ _)
      · rw [hfinish] at hdata
        cases hdata
      · rw [hfinish] at hdata
        cases hdata

/-! ### A number -/

variable (acceptShort : Bool) (kind : Kind)

theorem feed_int_digit (hphase : isNegative phase = negative) {a : Nat}
    (ha : a ≤ limit negative) {ch : UInt8} (hch : charIsDigit ch = true) :
    feed acceptShort (.int kind phase (signed negative a)) ch =
      if 10 * a + (ch.toNat - 48) ≤ limit negative then
        .next (.int kind (digits negative) (signed negative (10 * a + (ch.toNat - 48))))
      else .fail := by
  obtain ⟨hlow, hhigh⟩ := (charIsDigit_iff ch).mp hch
  have hplus : ch ≠ 43 := by
    rintro rfl
    exact absurd hlow (by decide)
  have hminus : ch ≠ 45 := by
    rintro rfl
    exact absurd hlow (by decide)
  have hdigit : 48 ≤ ch ∧ ch ≤ 57 := ⟨UInt8.le_iff_toNat_le.mpr hlow, UInt8.le_iff_toNat_le.mpr hhigh⟩
  have hcast : (ch.toNat : Int) - 48 = (ch.toNat - 48 : Nat) := (Nat.cast_sub hlow).symm
  rw [feed_int, if_neg hplus, if_neg hminus, if_pos hdigit, hcast, addDigit_eq hphase ha (by omega)]
  split_ifs <;> rfl

theorem isNegative_digits (negative : Bool) : isNegative (digits negative) = negative := by
  cases negative <;> rfl

theorem advance_digits (hphase : isNegative phase = negative) {a : Nat} {ds : Bytes}
    (hds : IsDigits ds) (hfits : ds.foldl (fun n c => 10 * n + (c.toNat - 48)) a ≤ limit negative) :
    advance (feed acceptShort) (.int kind phase (signed negative a)) ds =
      some (.int kind (digits negative)
        (signed negative (ds.foldl (fun n c => 10 * n + (c.toNat - 48)) a))) := by
  obtain ⟨hne, hdigits⟩ := hds
  induction ds generalizing phase a with
  | nil => exact absurd rfl hne
  | cons c ds ih =>
    rw [List.forall_mem_cons] at hdigits
    rw [List.foldl_cons] at hfits ⊢
    have hnext := (digitsValue_foldl_le (10 * a + (c.toNat - 48)) ds).trans hfits
    have ha : a ≤ limit negative := by omega
    have hfeed := feed_int_digit acceptShort kind hphase ha hdigits.1
    rw [if_pos hnext] at hfeed
    rw [advance_cons_next hfeed]
    cases ds with
    | nil => rfl
    | cons d ds => exact ih (isNegative_digits negative) hfits (List.cons_ne_nil d ds) hdigits.2

theorem run_digits_fail (hphase : isNegative phase = negative) {a : Nat} {ds : Bytes}
    (hdigits : ∀ c ∈ ds, charIsDigit c = true) (ha : a ≤ limit negative)
    (hlarge : limit negative < ds.foldl (fun n c => 10 * n + (c.toNat - 48)) a) (rest : Bytes) :
    ∃ s left, run (feed acceptShort) (.int kind phase (signed negative a)) (ds ++ rest) = .fail s left := by
  induction ds generalizing phase a with
  | nil => exact absurd ha (Nat.not_le_of_lt hlarge)
  | cons c ds ih =>
    rw [List.forall_mem_cons] at hdigits
    have hfeed := feed_int_digit acceptShort kind hphase ha hdigits.1
    rw [List.cons_append]
    by_cases hnext : 10 * a + (c.toNat - 48) ≤ limit negative
    · rw [if_pos hnext] at hfeed
      rw [run_cons_next hfeed]
      exact ih (isNegative_digits negative) hdigits.2 hnext hlarge
    · rw [if_neg hnext] at hfeed
      exact ⟨_, _, run_cons_fail hfeed⟩

/-- The sign of a number, if it is written. -/
def signPhase (sign : Bytes) : Phase := if sign = [45] then .negative else if sign = [43] then .positive else .virgin

theorem advance_sign {sign : Bytes} (hsign : sign = [] ∨ sign = [43] ∨ sign = [45]) :
    advance (feed acceptShort) (.int kind .virgin 0) sign = some (.int kind (signPhase sign) 0) := by
  rcases hsign with rfl | rfl | rfl <;> rfl

theorem run_newline (negative : Bool) (value : Int) (rest : Bytes) :
    run (feed acceptShort) (.int .integer (digits negative) value) (13 :: 10 :: rest) =
      .done (.integer (Int32.ofInt value)) rest := by
  cases negative <;> rfl

def numberValue (sign digits : Bytes) : Int := signed (sign = [45]) (digitsValue digits)

theorem fits_iff (sign digits : Bytes) :
    digitsValue digits ≤ limit (sign = [45]) ↔
      -2147483648 ≤ numberValue sign digits ∧ numberValue sign digits ≤ 2147483647 := by
  rw [numberValue]
  by_cases hsign : sign = [45]
  · rw [decide_eq_true hsign]
    simp only [limit, signed, if_true]
    omega
  · rw [decide_eq_false hsign]
    simp only [limit, signed, Bool.false_eq_true, if_false]
    omega

/-- **Integers are exact.** In whatever pieces a number is received, it is yielded iff it fits, and refused otherwise;
and no computation for a digit overflows, whatever has been read. -/
theorem integers_exact :
    (∀ (acceptShort : Bool) (sign ds rest : Bytes) (pieces : List Bytes), (sign = [] ∨ sign = [43] ∨ sign = [45]) →
      IsDigits ds → pieces.flatten = sign ++ (ds ++ 13 :: 10 :: rest) →
      if -2147483648 ≤ numberValue sign ds ∧ numberValue sign ds ≤ 2147483647 then
        ∃ i : Int32, i.toInt = numberValue sign ds ∧
          handlePieces acceptShort (.int .integer .virgin 0) pieces = .done (.integer i) rest
      else ∃ s left, handlePieces acceptShort (.int .integer .virgin 0) pieces = .fail s left) ∧
      ∀ (kind : Kind) (data rest : Bytes) (phase : Phase) (value digit : Int),
        IntState.handleData kind .virgin 0 data = .more (.int kind phase value) rest → 0 ≤ digit → digit ≤ 9 →
        addDigitChecked phase value digit = some (addDigit phase value digit) := by
  constructor
  · intro acceptShort sign ds rest pieces hsign hds hpieces
    have hphase : isNegative (signPhase sign) = decide (sign = [45]) := by
      rcases hsign with rfl | rfl | rfl <;> rfl
    have hzero : (0 : Int) = signed (sign = [45]) 0 := by
      rcases hsign with rfl | rfl | rfl <;> rfl
    rw [handlePieces_eq_handleData, handleData_eq_run, hpieces, run_of_advance (advance_sign acceptShort .integer hsign),
      hzero]
    split_ifs with hrange
    · have hfits := (fits_iff sign ds).mpr hrange
      refine ⟨Int32.ofInt (numberValue sign ds), Int32.toInt_ofInt_of_le (by omega) (by omega), ?_⟩
      rw [run_of_advance (advance_digits acceptShort .integer hphase hds hfits), run_newline]
      rfl
    · have hlarge := Nat.lt_of_not_le (mt (fits_iff sign ds).mp hrange)
      exact run_digits_fail acceptShort .integer hphase hds.2 (Nat.zero_le _) hlarge _
  · intro kind data rest phase value digit hdata hlow hhigh
    have hstart : Signed .virgin 0 := ⟨fun _ => le_rfl, fun _ => le_rfl, fun _ => rfl⟩
    exact addDigitChecked_eq (hstart.handleData hdata) hlow hhigh

theorem integers_exact_limits :
    (∃ i : Int32, i.toInt = -2147483648 ∧ handlePieces false (.int .integer .virgin 0)
        [lit "-02147", lit "483648\r\n+"] = .done (.integer i) (lit "+")) ∧
      (∃ s left, handlePieces false (.int .integer .virgin 0) [lit "-02147", lit "483649\r\n+"] = .fail s left) ∧
      (∃ i : Int32, i.toInt = 2147483647 ∧ handlePieces false (.int .integer .virgin 0)
        [lit "+02147", lit "483647\r\n+"] = .done (.integer i) (lit "+")) ∧
      (∃ s left, handlePieces false (.int .integer .virgin 0) [lit "+02147", lit "483648\r\n+"] = .fail s left) ∧
      addDigitChecked .negativeDigits (-214748364) 8 = some (some (.negativeDigits, -2147483648)) := by
  refine ⟨?_, ?_, ?_, ?_, ?_⟩
  · exact integers_exact.1 false (lit "-") (lit "02147483648") (lit "+") _ (by decide) (by decide) (by decide)
  · exact integers_exact.1 false (lit "-") (lit "02147483649") (lit "+") _ (by decide) (by decide) (by decide)
  · exact integers_exact.1 false (lit "+") (lit "02147483647") (lit "+") _ (by decide) (by decide) (by decide)
  · exact integers_exact.1 false (lit "+") (lit "02147483648") (lit "+") _ (by decide) (by decide) (by decide)
  · exact integers_exact.2 .integer (lit "-214748364") [] _ _ 8 rfl (by decide) (by decide)

end IntState

end Afl.Io.Resp
