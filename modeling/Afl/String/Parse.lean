import Afl.Base.Bytes
import Mathlib.Data.List.TakeWhile

/-!
# Characters, case conversion and integer parsing

`afl/string/char.hpp`, the case conversions of `string.cpp`, and `strToInteger` of `parse.cpp` as it
behaves with a 64-bit `long`: libc's `strtol`/`strtoul` read the C string (so an embedded NUL ends it), and
`parsePostValidate` accepts trailing whitespace only.
-/

namespace Afl

def charIsUpper (ch : UInt8) : Bool := 65 ≤ ch && ch ≤ 90

def charIsLower (ch : UInt8) : Bool := 97 ≤ ch && ch ≤ 122

def charIsSpace (ch : UInt8) : Bool := ch == 32 || ch == 9 || ch == 13 || ch == 10

def charIsDigit (ch : UInt8) : Bool := 48 ≤ ch && ch ≤ 57

def charToUpper (ch : UInt8) : UInt8 := if charIsLower ch then ch - 0x20 else ch

def charToLower (ch : UInt8) : UInt8 := if charIsUpper ch then ch + 0x20 else ch

def strUCase (s : Bytes) : Bytes := s.map charToUpper

def strLCase (s : Bytes) : Bytes := s.map charToLower

/-- What a `const char*` consumer sees of a string. -/
def cString (s : Bytes) : Bytes := s.takeWhile (· ≠ 0)

/-- `isspace` of the C locale, which `strtol` skips. -/
def isCSpace (ch : UInt8) : Bool := ch == 32 || (9 ≤ ch && ch ≤ 13)

def digitsValue (ds : Bytes) : Nat := ds.foldl (fun n c => 10 * n + (c.toNat - 48)) 0

/-- The subject sequence found by `strtol`/`strtoul`: sign, digits, and what follows them. -/
structure Subject where
  negative : Bool
  digits : Bytes
  rest : Bytes

/-- The scanning part of `strtol(c, &end, 10)`; `none` when nothing can be parsed (`c == end`). -/
def scanSubject (s : Bytes) : Option Subject :=
  let s := (cString s).dropWhile isCSpace
  let (negative, s) :=
    match s with
    | 43 :: t => (false, t)
    | 45 :: t => (true, t)
    | s => (false, s)
  let digits := s.takeWhile charIsDigit
  if digits = [] then none else some ⟨negative, digits, s.dropWhile charIsDigit⟩

/-- `strToInteger(str, long&)`: `errno == ERANGE` outside 64 bits, trailing whitespace allowed. -/
def strToLong (s : Bytes) : Option Int :=
  match scanSubject s with
  | none => none
  | some sub =>
    let v : Int := if sub.negative then -(digitsValue sub.digits : Int) else digitsValue sub.digits
    if v < -2 ^ 63 ∨ 2 ^ 63 ≤ v then none
    else if sub.rest.all charIsSpace then some v else none

/-- `strToInteger(str, unsigned long&)`: as above, but a minus sign is refused. -/
def strToULong (s : Bytes) : Option Nat :=
  match scanSubject s with
  | none => none
  | some sub =>
    if 2 ^ 64 ≤ digitsValue sub.digits then none
    else if sub.negative then none
    else if sub.rest.all charIsSpace then some (digitsValue sub.digits) else none

/-- `strToInteger(str, int32_t&)`: the `long` must survive the conversion to `int32_t`. -/
def strToInt32 (s : Bytes) : Option Int32 :=
  match strToLong s with
  | none => none
  | some v => if (Int32.ofInt v).toInt = v then some (Int32.ofInt v) else none

example : strToInt32 (lit " -12 ") = some (-12) ∧ strToInt32 (lit "2147483648") = none := by decide

/-! ### Written numbers -/

theorem charIsDigit_digit {d : Nat} (hd : d < 10) : charIsDigit (UInt8.ofNat (48 + d)) = true := by
  have hvalue : (UInt8.ofNat (48 + d)).toNat = 48 + d := by
    simp
    omega
  rw [charIsDigit, Bool.and_eq_true, decide_eq_true_eq, decide_eq_true_eq, UInt8.le_iff_toNat_le,
    UInt8.le_iff_toNat_le, hvalue]
  simp
  omega

theorem charIsDigit_of_mem_decimalNat (n : Nat) : ∀ c ∈ decimalNat n, charIsDigit c = true := by
  refine decimalNat_induction (P := fun _ text => ∀ c ∈ text, charIsDigit c = true) ?_ ?_ n
  · intro d hd c hc
    rw [List.mem_singleton.mp hc]
    exact charIsDigit_digit hd
  · intro n _ ih c hc
    rcases List.mem_append.mp hc with hc | hc
    · exact ih c hc
    · rw [List.mem_singleton.mp hc]
      exact charIsDigit_digit (Nat.mod_lt n (by decide))

theorem decimalNat_ne_nil (n : Nat) : decimalNat n ≠ [] := by
  refine decimalNat_induction (P := fun _ text => text ≠ []) ?_ ?_ n
  · intro d _
    exact List.cons_ne_nil _ _
  · intro n _ _
    simp

theorem digitsValue_append_digit (ds : Bytes) {d : Nat} (hd : d < 10) :
    digitsValue (ds ++ [UInt8.ofNat (48 + d)]) = 10 * digitsValue ds + d := by
  have hvalue : (UInt8.ofNat (48 + d)).toNat = 48 + d := by
    simp
    omega
  rw [digitsValue, List.foldl_append, List.foldl_cons, List.foldl_nil, hvalue, digitsValue]
  omega

theorem digitsValue_decimalNat (n : Nat) : digitsValue (decimalNat n) = n := by
  refine decimalNat_induction (P := fun n text => digitsValue text = n) ?_ ?_ n
  · intro d hd
    have hone := digitsValue_append_digit [] hd
    have hnil : digitsValue [] = 0 := rfl
    rwa [List.nil_append, hnil, Nat.mul_zero, Nat.zero_add] at hone
  · intro n _ ih
    rw [digitsValue_append_digit _ (Nat.mod_lt n (by decide)), ih]
    omega

theorem charIsDigit_iff (c : UInt8) : charIsDigit c = true ↔ 48 ≤ c.toNat ∧ c.toNat ≤ 57 := by
  rw [charIsDigit, Bool.and_eq_true, decide_eq_true_eq, decide_eq_true_eq, UInt8.le_iff_toNat_le,
    UInt8.le_iff_toNat_le]
  exact Iff.rfl

theorem digit_ne {c d : UInt8} (hc : charIsDigit c = true) (hd : charIsDigit d = false) : c ≠ d := by
  rintro rfl
  rw [hc] at hd
  cases hd

theorem isCSpace_digit {c : UInt8} (hc : charIsDigit c = true) : isCSpace c = false := by
  rw [charIsDigit_iff] at hc
  rw [isCSpace, Bool.or_eq_false_iff, Bool.and_eq_false_iff, decide_eq_false_iff_not, decide_eq_false_iff_not,
    UInt8.le_iff_toNat_le, UInt8.le_iff_toNat_le]
  refine ⟨?_, .inr ?_⟩
  · rw [beq_eq_false_iff_ne]
    rintro rfl
    simp at hc
  · simp
    omega

theorem scanSubject_decimal (i : Int) :
    scanSubject (decimal i) = some ⟨decide (i < 0), decimalNat i.natAbs, []⟩ := by
  have hdigits := charIsDigit_of_mem_decimalNat i.natAbs
  have htake : (decimalNat i.natAbs).takeWhile charIsDigit = decimalNat i.natAbs :=
    List.takeWhile_eq_self_iff.mpr hdigits
  have hdrop : (decimalNat i.natAbs).dropWhile charIsDigit = [] := List.dropWhile_eq_nil_iff.mpr hdigits
  have hnonzero : ∀ c ∈ decimalNat i.natAbs, decide (c ≠ 0) = true := by
    intro c hc
    exact decide_eq_true (digit_ne (hdigits c hc) (by decide))
  have hstring : cString (decimalNat i.natAbs) = decimalNat i.natAbs :=
    List.takeWhile_eq_self_iff.mpr hnonzero
  have hne := decimalNat_ne_nil i.natAbs
  by_cases hneg : i < 0
  · have htext : decimal i = 45 :: decimalNat i.natAbs := by
      rw [decimal, if_pos hneg]
      rfl
    have hsigned : (cString (45 :: decimalNat i.natAbs)).dropWhile isCSpace = 45 :: decimalNat i.natAbs := by
      rw [cString, List.takeWhile_cons_of_pos (by decide), List.dropWhile_cons_of_neg (by decide)]
      exact congrArg _ hstring
    simp only [scanSubject, htext, hsigned, htake, hdrop, if_neg hne, hneg, decide_true]
  · have htext : decimal i = decimalNat i.natAbs := by rw [decimal, if_neg hneg]
    obtain ⟨c, cs, hcons⟩ := List.exists_cons_of_ne_nil hne
    have hc : charIsDigit c = true := hdigits c (by rw [hcons]; exact List.mem_cons_self)
    have hunsigned : (cString (decimalNat i.natAbs)).dropWhile isCSpace = decimalNat i.natAbs := by
      rw [hstring, hcons, List.dropWhile_cons_of_neg (by rw [isCSpace_digit hc]; decide)]
    simp only [scanSubject, htext, hunsigned]
    have hsign : ∀ sign t, charIsDigit sign = false → decimalNat i.natAbs ≠ sign :: t := by
      intro sign t hsign ht
      exact digit_ne (hdigits sign (by rw [ht]; exact List.mem_cons_self)) hsign rfl
    split
    · exact absurd ‹_› (hsign 43 _ (by decide))
    · exact absurd ‹_› (hsign 45 _ (by decide))
    · simp only [htake, hdrop, if_neg hne, hneg, decide_false]

theorem mem_decimal {i : Int} {c : UInt8} (h : c ∈ decimal i) : c = 45 ∨ charIsDigit c = true := by
  rw [decimal] at h
  split_ifs at h
  · rcases List.mem_cons.1 h with rfl | h
    · exact .inl rfl
    · exact .inr (charIsDigit_of_mem_decimalNat _ c h)
  · exact .inr (charIsDigit_of_mem_decimalNat _ c h)

theorem strToLong_decimal {i : Int} (hlower : -2 ^ 63 ≤ i) (hupper : i < 2 ^ 63) : strToLong (decimal i) = some i := by
  have hvalue : (if decide (i < 0) = true then -(digitsValue (decimalNat i.natAbs) : Int)
      else digitsValue (decimalNat i.natAbs)) = i := by
    rw [digitsValue_decimalNat]
    simp only [decide_eq_true_eq]
    split_ifs <;> omega
  simp only [strToLong, scanSubject_decimal, hvalue]
  rw [if_neg (by omega)]
  rfl

theorem strToInt32_decimal (iv : Int32) : strToInt32 (decimal iv.toInt) = some iv := by
  have hlower := iv.le_toInt
  have hupper := iv.toInt_lt
  rw [strToInt32, strToLong_decimal (by omega) (by omega)]
  simp

end Afl
