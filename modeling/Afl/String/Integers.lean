import Afl.String.Format
import Afl.String.ParseMemory

/-!
# Integers in strings

`strToInteger` of `parse.cpp` and `parse.hpp` for each integer type, with either library behind it, and the numbers that
`Format("%d", n)` writes. `long` has 64 bits. A pointer into the C string is an offset.
-/

namespace Afl.Integers

open Format

/-! ### Conversions of the library -/

/-- What `strtol` and its siblings report: `ERANGE`, where `*end` need not be set, or a value and `*end`. -/
inductive Conversion
  | range (value : Int) (stop : Option Nat)
  | converted (value : Int) (stop : Nat)
deriving DecidableEq

/-- Whether there is a minus sign, and what follows the sign. -/
def readSign : Bytes → Bool × Bytes
  | 43 :: c => (false, c)
  | 45 :: c => (true, c)
  | c => (false, c)

/-- The subject sequence, with the white space of the reader. -/
def scan (space : UInt8 → Bool) (c : Bytes) : Option Subject :=
  let (negative, c) := readSign (c.dropWhile space)
  let digits := c.takeWhile charIsDigit
  if digits = [] then none else some ⟨negative, digits, c.dropWhile charIsDigit⟩

def subjectValue (sub : Subject) : Int :=
  if sub.negative then -(digitsValue sub.digits : Int) else digitsValue sub.digits

namespace Standard

/-- `strtol` and `strtoll` of the C standard in the C locale. Without a subject sequence, `*end` is the start. -/
def strtoll (c : Bytes) : Conversion :=
  match scan isCSpace c with
  | none => .converted 0 0
  | some sub =>
    let stop := c.length - sub.rest.length
    if subjectValue sub < -2 ^ 63 then .range (-2 ^ 63) (some stop)
    else if 2 ^ 63 ≤ subjectValue sub then .range (2 ^ 63 - 1) (some stop)
    else .converted (subjectValue sub) stop

/-- `strtoul` and `strtoull`: a minus sign negates in the unsigned type. -/
def strtoull (c : Bytes) : Conversion :=
  match scan isCSpace c with
  | none => .converted 0 0
  | some sub =>
    let stop := c.length - sub.rest.length
    if 2 ^ 64 ≤ digitsValue sub.digits then .range (2 ^ 64 - 1) (some stop)
    else .converted (subjectValue sub % 2 ^ 64) stop

end Standard

/-! ### The built-in conversions -/

namespace Own

/-- The loop of `readDigits`; the caller looks at `in` only after success. -/
def readDigits (ok : Bool) (value : UInt64) : Bytes → Option (UInt64 × Bytes)
  | [] => if ok then some (value, []) else none
  | c :: p =>
    if 48 ≤ c ∧ c ≤ 57 then
      let limit : UInt64 := -1
      let digit := (c - 48).toUInt64
      if value > limit / 10 ∨ digit > limit - 10 * value then none
      else readDigits true (10 * value + digit) p
    else if ok then some (value, c :: p) else none

def skipPlus : Bytes → Bytes
  | 43 :: p => p
  | p => p

def strtoull (c : Bytes) : Conversion :=
  match readDigits false 0 (skipPlus (c.dropWhile charIsSpace)) with
  | none => .range 0 none
  | some (result, rest) => .converted result.toNat (c.length - rest.length)

def strtoll (c : Bytes) : Conversion :=
  let (negative, p) := readSign (c.dropWhile charIsSpace)
  let max := (1 : UInt64) <<< 63
  match readDigits false 0 p with
  | none => .range 0 none
  | some (result, rest) =>
    let stop := c.length - rest.length
    if negative then if result > max then .range 0 none else .converted (-result).toInt64.toInt stop
    else if result ≥ max then .range 0 none else .converted result.toInt64.toInt stop

end Own

/-- Whose `strtoll` and `strtoull` the compiler takes. -/
inductive Library
  | standard
  | own
deriving DecidableEq

def Library.strtoll : Library → Bytes → Conversion
  | standard => Standard.strtoll
  | own => Own.strtoll

def Library.strtoull : Library → Bytes → Conversion
  | standard => Standard.strtoull
  | own => Own.strtoull

/-! ### The types -/

/-- An integer type, no longer than `long`, as the template asserts. -/
structure IntType where
  signed : Bool
  bits : Nat
  bits_pos : 0 < bits
  bits_le : bits ≤ 64

namespace IntType

/-- The numbers of the type. -/
def Holds (T : IntType) (v : Int) : Prop :=
  if T.signed then -2 ^ (T.bits - 1) ≤ v ∧ v < 2 ^ (T.bits - 1) else 0 ≤ v ∧ v < 2 ^ T.bits

instance (T : IntType) (v : Int) : Decidable (T.Holds v) := inferInstanceAs (Decidable (ite _ _ _))

abbrev Value (T : IntType) := {v : Int // T.Holds v}

def convert (T : IntType) (tmp : Int) : Int := if T.signed then tmp.bmod (2 ^ T.bits) else tmp % 2 ^ T.bits

theorem longBits_pos : 0 < 64 := by decide

theorem longBits_le : 64 ≤ 64 := Nat.le_refl 64

def long : IntType := ⟨true, 64, longBits_pos, longBits_le⟩

def unsignedLong : IntType := ⟨false, 64, longBits_pos, longBits_le⟩

theorem holds_long (v : Int) : long.Holds v ↔ -2 ^ 63 ≤ v ∧ v < 2 ^ 63 := Iff.rfl

theorem holds_unsignedLong (v : Int) : unsignedLong.Holds v ↔ 0 ≤ v ∧ v < 2 ^ 64 := Iff.rfl

/-- `FormatTraits<T>::format` of a stored value. -/
def formatter (T : IntType) (n : T.Value) : Formatter :=
  if T.signed then FormatSigned.format (Int64.ofInt n) else FormatUnsigned.format (UInt64.ofInt n)

end IntType

/-- The overloads of `strToInteger`: the template, and one for each of the longest types. -/
inductive Target
  | narrow (T : IntType)
  | long
  | unsignedLong
  | longLong
  | unsignedLongLong

/-- `long long` has 64 bits as well. -/
def Target.type : Target → IntType
  | narrow T => T
  | long | longLong => .long
  | unsignedLong | unsignedLongLong => .unsignedLong

/-! ### Parsing -/

/-- The position of what is wrong, or the value. -/
def parsePostValidate (c : Bytes) (refuseNegative : Bool) : Conversion → Except Nat Int
  | .range _ _ => .error 0
  | .converted v stop =>
    if stop = 0 then .error 0
    else if refuseNegative ∧ 45 ∈ c.take stop then .error ((c.take stop).idxOf 45)
    else
      let rest := (c.drop stop).dropWhile charIsSpace
      if c = [] ∨ rest ≠ [] then .error (c.length - rest.length) else .ok v

def strToLong (s : Bytes) : Except Nat Int := parsePostValidate (cString s) false (Standard.strtoll (cString s))

def strToUnsignedLong (s : Bytes) : Except Nat Int := parsePostValidate (cString s) true (Standard.strtoull (cString s))

def strToNarrow (T : IntType) (s : Bytes) : Except Nat Int :=
  match if T.signed then strToLong s else strToUnsignedLong s with
  | .error pos => .error pos
  | .ok tmp => if T.convert tmp ≠ tmp then .error 0 else .ok (T.convert tmp)

def strToInteger (lib : Library) : Target → Bytes → Except Nat Int
  | .narrow T, s => strToNarrow T s
  | .long, s => strToLong s
  | .unsignedLong, s => strToUnsignedLong s
  | .longLong, s => parsePostValidate (cString s) false (lib.strtoll (cString s))
  | .unsignedLongLong, s => parsePostValidate (cString s) true (lib.strtoull (cString s))

example : strToInteger .own .longLong (lit " -17 ") = .ok (-17) ∧ strToInteger .standard .unsignedLong (lit " -17 ") = .error 1 := by
  decide

/-! ### The grammar -/

/-- The overloads that take `strtoll` or `strtoull`. -/
def Target.IsLongest : Target → Prop
  | longLong | unsignedLongLong => True
  | _ => False

/-- The white space that is skipped in front of a number. -/
def Library.space (lib : Library) : Target → UInt8 → Bool
  | .longLong | .unsignedLongLong => if lib = own then charIsSpace else isCSpace
  | _ => isCSpace

/-- A text that begins with a number: white space, a sign, digits. -/
def Numeral (space : UInt8 → Bool) (signed : Bool) (s : Bytes) (v : Int) (rest : Bytes) : Prop :=
  ∃ lead sign digits, s = lead ++ (sign ++ (digits ++ rest)) ∧ (∀ c ∈ lead, space c = true) ∧
    (sign = [] ∨ sign = [43] ∨ signed = true ∧ sign = [45]) ∧ digits ≠ [] ∧ (∀ c ∈ digits, charIsDigit c = true) ∧
      v = if sign = [45] then -(digitsValue digits : Int) else digitsValue digits

/-- A text that is a number of the type and white space. -/
def Spells (space : UInt8 → Bool) (T : IntType) (s : Bytes) (v : Int) : Prop :=
  ∃ trail, Numeral space T.signed s v trail ∧ (∀ c ∈ trail, charIsSpace c = true) ∧ T.Holds v

/-- The grammar of `strToInteger`. -/
def Grammar (T : IntType) (s : Bytes) (v : Int) : Prop := Spells charIsSpace T s v

/-- A number, a null byte, and anything. -/
def CutShort (space : UInt8 → Bool) (T : IntType) (s : Bytes) : Prop := ∃ t rest v, s = t ++ 0 :: rest ∧ Spells space T t v

/-- A vertical tab or a form feed comes before anything but white space. -/
def OddStart (s : Bytes) : Prop := ∃ c ∈ (s.dropWhile charIsSpace).head?, c = 11 ∨ c = 12

/-- A number with a vertical tab or a form feed in the white space in front of it. -/
def OddlyLed (space : UInt8 → Bool) (T : IntType) (s : Bytes) : Prop := (∃ v, Spells space T s v) ∧ OddStart s

/-- A text that begins with a number of the type. -/
def Starts (T : IntType) (s : Bytes) : Prop :=
  ∃ v rest, Numeral charIsSpace T.signed s v rest ∧ (∀ c ∈ rest.head?, charIsDigit c = false) ∧ T.Holds v

/-! ### The subject sequence -/

theorem isCSpace_of_charIsSpace {c : UInt8} (h : charIsSpace c = true) : isCSpace c = true := by
  rw [charIsSpace] at h
  simp only [Bool.or_eq_true, beq_iff_eq] at h
  rcases h with ((rfl | rfl) | rfl) | rfl <;> rfl

def IsSign (negative : Bool) (sign : Bytes) : Prop := if negative then sign = [45] else sign = [] ∨ sign = [43]

variable {negative : Bool}

theorem mem_isSign {sign : Bytes} (hsign : IsSign negative sign) {x : UInt8} (hx : x ∈ sign) :
    x = 43 ∨ x = 45 ∧ negative = true := by
  cases negative with
  | true =>
    obtain rfl : sign = [45] := hsign
    exact .inr ⟨List.mem_singleton.mp hx, rfl⟩
  | false =>
    rcases hsign with rfl | rfl
    · cases hx
    · exact .inl (List.mem_singleton.mp hx)

theorem isSign_minus_iff {sign : Bytes} (hsign : IsSign negative sign) : sign = [45] ↔ negative = true := by
  cases negative with
  | true => exact iff_of_true hsign rfl
  | false => rcases hsign with rfl | rfl <;> decide

theorem readSign_append {sign t : Bytes} (hsign : IsSign negative sign)
    (ht : ∃ c ∈ t.head?, charIsDigit c = true) : readSign (sign ++ t) = (negative, t) := by
  cases negative with
  | true =>
    obtain rfl : sign = [45] := hsign
    rfl
  | false =>
    rcases hsign with rfl | rfl
    · obtain ⟨c, hc, hdigit⟩ := ht
      rw [List.nil_append]
      fun_cases readSign t with
      | case1 => cases hc; cases hdigit
      | case2 => cases hc; cases hdigit
      | case3 => rfl
    · rfl

theorem readSign_sound {c t : Bytes} (h : readSign c = (negative, t)) :
    ∃ sign, IsSign negative sign ∧ c = sign ++ t := by
  fun_cases readSign c with
  | case1 c =>
    rw [readSign] at h
    cases h
    exact ⟨[43], .inr rfl, rfl⟩
  | case2 c =>
    rw [readSign] at h
    cases h
    exact ⟨[45], rfl, rfl⟩
  | case3 c hplus hminus =>
    rw [readSign] at h
    · cases h
      exact ⟨[], .inl rfl, rfl⟩
    · exact hplus
    · exact hminus

/-- How a subject sequence lies in a string. -/
def Begins (space : UInt8 → Bool) (c : Bytes) (sub : Subject) : Prop :=
  ∃ lead sign, c = lead ++ (sign ++ (sub.digits ++ sub.rest)) ∧ (∀ x ∈ lead, space x = true) ∧ IsSign sub.negative sign ∧
    sub.digits ≠ [] ∧ (∀ x ∈ sub.digits, charIsDigit x = true) ∧ ∀ x ∈ sub.rest.head?, charIsDigit x = false

theorem isCSpace_head {sign digits : Bytes} (hsign : ∀ x ∈ sign, x = 43 ∨ x = 45) (hne : digits ≠ [])
    (hdigits : ∀ x ∈ digits, charIsDigit x = true) (rest : Bytes) :
    ∀ x ∈ (sign ++ (digits ++ rest)).head?, isCSpace x = false := by
  intro x hx
  obtain ⟨d, ds, rfl⟩ := List.exists_cons_of_ne_nil hne
  cases sign with
  | nil =>
    obtain rfl : d = x := Option.some.inj hx
    exact isCSpace_digit (hdigits d List.mem_cons_self)
  | cons y ys =>
    obtain rfl : y = x := Option.some.inj hx
    rcases hsign y List.mem_cons_self with rfl | rfl <;> rfl

variable {c : Bytes} {sub : Subject}

section Scan

variable {space : UInt8 → Bool} (hspace : ∀ c, space c = true → isCSpace c = true)

theorem scan_sound (h : scan space c = some sub) : Begins space c sub := by
  rw [scan] at h
  rcases hsign : readSign (c.dropWhile space) with ⟨negative, t⟩
  obtain ⟨sign, hmeans, hdrop⟩ := readSign_sound hsign
  rw [hsign] at h
  dsimp only at h
  split_ifs at h with hne
  cases h
  refine ⟨c.takeWhile space, sign, ?_, fun x hx => List.mem_takeWhile_imp hx, hmeans, hne,
    fun x hx => List.mem_takeWhile_imp hx, head?_dropWhile_false _ _⟩
  rw [List.takeWhile_append_dropWhile, ← hdrop, List.takeWhile_append_dropWhile]

include hspace

theorem scan_complete (h : Begins space c sub) : scan space c = some sub := by
  obtain ⟨lead, sign, rfl, hlead, hsign, hne, hdigits, hrest⟩ := h
  obtain ⟨d, ds, hcons⟩ := List.exists_cons_of_ne_nil hne
  have hd : charIsDigit d = true := hdigits d (by rw [hcons]; exact List.mem_cons_self)
  have hfirst : ∃ x ∈ (sub.digits ++ sub.rest).head?, charIsDigit x = true := ⟨d, by rw [hcons]; rfl, hd⟩
  have hstop : ∀ x ∈ (sign ++ (sub.digits ++ sub.rest)).head?, space x = false := by
    intro x hx
    rw [Bool.eq_false_iff]
    intro hx'
    have hcspace := isCSpace_head (fun y hy => (mem_isSign hsign hy).imp_right And.left) hne hdigits sub.rest x hx
    rw [hspace x hx'] at hcspace
    cases hcspace
  have hdrop := (takeWhile_append_stop hlead hstop).2
  obtain ⟨htake, hdrop'⟩ := takeWhile_append_stop hdigits hrest
  rw [scan, hdrop, readSign_append hsign hfirst]
  dsimp only
  rw [htake, hdrop', if_neg hne]

end Scan

/-! ### What the conversions return -/

namespace Own

theorem readDigits_overflow {c : UInt8} (hc : charIsDigit c = true) (value : UInt64) :
    (value > -1 / 10 ∨ (c - 48).toUInt64 > -1 - 10 * value ↔ 2 ^ 64 ≤ 10 * value.toNat + (c.toNat - 48)) ∧
      (10 * value.toNat + (c.toNat - 48) < 2 ^ 64 →
        (10 * value + (c - 48).toUInt64).toNat = 10 * value.toNat + (c.toNat - 48)) := by
  have hdigit := (charIsDigit_iff c).mp hc
  have hdiv : ((-1 : UInt64) / 10).toNat = 1844674407370955161 := by decide
  have hlimit : (-1 : UInt64).toNat = 2 ^ 64 - 1 := by decide
  have hmul : (10 * value).toNat = 10 * value.toNat % 2 ^ 64 := UInt64.toNat_mul 10 value
  have hadd : (10 * value + (c - 48).toUInt64).toNat = ((10 * value).toNat + (c.toNat - 48)) % 2 ^ 64 := by
    rw [UInt64.toNat_add, toNat_sub_digit hc]
  have hsub : (-1 - 10 * value : UInt64).toNat = 2 ^ 64 - 1 - (10 * value).toNat := by
    have hle : 10 * value ≤ -1 := by
      have hlt := (10 * value).toNat_lt
      rw [UInt64.le_iff_toNat_le, hlimit]
      omega
    rw [UInt64.toNat_sub_of_le _ _ hle, hlimit]
  rw [gt_iff_lt, gt_iff_lt, UInt64.lt_iff_toNat_lt, UInt64.lt_iff_toNat_lt, hdiv, hsub, toNat_sub_digit hc, hadd, hmul]
  have hvalue := value.toNat_lt
  constructor
  · omega
  · omega

theorem readDigits_eq (ok : Bool) (value : UInt64) (p : Bytes) :
    readDigits ok value p =
      let result := (p.takeWhile charIsDigit).foldl (fun n c => 10 * n + (c.toNat - 48)) value.toNat
      if (ok = false ∧ p.takeWhile charIsDigit = []) ∨ 2 ^ 64 ≤ result then none
      else some (UInt64.ofNat result, p.dropWhile charIsDigit) := by
  have hend : ∀ (ok : Bool) (value : UInt64) (rest : Bytes), (if ok = true then some (value, rest) else none) =
      if (ok = false ∧ ([] : Bytes) = []) ∨ 2 ^ 64 ≤ value.toNat then none else some (UInt64.ofNat value.toNat, rest) := by
    intro ok value rest
    have hvalue := value.toNat_lt
    cases ok with
    | false => rw [if_neg Bool.false_ne_true, if_pos (.inl ⟨rfl, rfl⟩)]
    | true => rw [if_pos rfl, if_neg (by simpa using hvalue), UInt64.ofNat_toNat]
  induction p generalizing ok value with
  | nil => exact hend ok value []
  | cons c p ih =>
    have hiff : 48 ≤ c ∧ c ≤ 57 ↔ charIsDigit c = true := by
      rw [charIsDigit, Bool.and_eq_true, decide_eq_true_eq, decide_eq_true_eq]
    rw [readDigits]
    by_cases hc : charIsDigit c = true
    · obtain ⟨hover, hnext⟩ := readDigits_overflow hc value
      rw [if_pos (hiff.mpr hc), List.takeWhile_cons_of_pos hc, List.dropWhile_cons_of_pos hc, List.foldl_cons]
      dsimp only
      by_cases hlarge : 2 ^ 64 ≤ 10 * value.toNat + (c.toNat - 48)
      · rw [if_pos (hover.mpr hlarge), if_pos (.inr (hlarge.trans (digitsValue_foldl_le _ _)))]
      · rw [if_neg (mt hover.mp hlarge), ih, hnext (not_le.mp hlarge)]
        simp only [Bool.true_eq_false, false_and, false_or, List.cons_ne_nil, and_false]
    · rw [if_neg (mt hiff.mp hc), List.takeWhile_cons_of_neg hc, List.dropWhile_cons_of_neg hc]
      exact hend ok value (c :: p)

theorem readDigits_digits (p : Bytes) :
    readDigits false 0 p =
      if p.takeWhile charIsDigit = [] ∨ 2 ^ 64 ≤ digitsValue (p.takeWhile charIsDigit) then none
      else some (UInt64.ofNat (digitsValue (p.takeWhile charIsDigit)), p.dropWhile charIsDigit) := by
  rw [readDigits_eq]
  simp only [true_and]
  rfl

theorem toInt_toInt64 (r : UInt64) : r.toInt64.toInt = if r.toNat < 2 ^ 63 then (r.toNat : Int) else r.toNat - 2 ^ 64 := by
  have hbits : r.toInt64.toInt = r.toBitVec.toInt := rfl
  rw [hbits, BitVec.toInt_eq_toNat_cond, UInt64.toNat_toBitVec]
  split_ifs <;> omega

theorem toInt_ofNat {n : Nat} (h : n < 2 ^ 63) : (UInt64.ofNat n).toInt64.toInt = n := by
  have hlt : n < 2 ^ 64 := by omega
  rw [toInt_toInt64, UInt64.toNat_ofNat_of_lt' hlt, if_pos h]

theorem toInt_neg_ofNat {n : Nat} (h : n ≤ 2 ^ 63) : (-UInt64.ofNat n).toInt64.toInt = -(n : Int) := by
  have hlt : n < 2 ^ 64 := by omega
  have hsize : UInt64.size = 2 ^ 64 := rfl
  rw [toInt_toInt64, UInt64.toNat_neg, UInt64.toNat_ofNat_of_lt' hlt, hsize]
  split_ifs <;> omega

theorem ofNat_max_iff {n : Nat} (h : n < 2 ^ 64) :
    (UInt64.ofNat n > (1 : UInt64) <<< 63 ↔ 2 ^ 63 < n) ∧ (UInt64.ofNat n ≥ (1 : UInt64) <<< 63 ↔ 2 ^ 63 ≤ n) := by
  have hmax : ((1 : UInt64) <<< 63).toNat = 2 ^ 63 := by decide
  rw [gt_iff_lt, ge_iff_le, UInt64.lt_iff_toNat_lt, UInt64.le_iff_toNat_le, UInt64.toNat_ofNat_of_lt' h, hmax]
  exact ⟨Iff.rfl, Iff.rfl⟩

theorem strtoll_eq (c : Bytes) :
    strtoll c =
      match scan charIsSpace c with
      | none => .range 0 none
      | some sub =>
        if IntType.long.Holds (subjectValue sub) then .converted (subjectValue sub) (c.length - sub.rest.length)
        else .range 0 none := by
  rw [strtoll, scan]
  rcases readSign (c.dropWhile charIsSpace) with ⟨negative, p⟩
  dsimp only
  rw [readDigits_digits]
  generalize p.dropWhile charIsDigit = rest
  generalize p.takeWhile charIsDigit = digits
  by_cases hnone : digits = []
  · rw [if_pos (.inl hnone), if_pos hnone]
  · rw [if_neg hnone]
    dsimp only
    have hholds : IntType.long.Holds (subjectValue ⟨negative, digits, rest⟩) ↔
        if negative then digitsValue digits ≤ 2 ^ 63 else digitsValue digits < 2 ^ 63 := by
      rw [IntType.holds_long, subjectValue]
      dsimp only
      split_ifs <;> omega
    by_cases hlarge : 2 ^ 64 ≤ digitsValue digits
    · rw [if_pos (.inr hlarge), if_neg]
      rw [hholds]
      split_ifs <;> omega
    · obtain ⟨hgt, hge⟩ := ofNat_max_iff (not_le.mp hlarge)
      rw [if_neg (not_or.mpr ⟨hnone, hlarge⟩)]
      dsimp only
      cases negative with
      | true =>
        rw [if_pos rfl]
        by_cases hfits : digitsValue digits ≤ 2 ^ 63
        · rw [if_neg (mt hgt.mp (by omega)), if_pos (hholds.mpr hfits), toInt_neg_ofNat hfits]
          rfl
        · rw [if_pos (hgt.mpr (by omega)), if_neg (mt hholds.mp hfits)]
      | false =>
        rw [if_neg Bool.false_ne_true]
        by_cases hfits : digitsValue digits < 2 ^ 63
        · rw [if_neg (mt hge.mp (by omega)), if_pos (hholds.mpr hfits), toInt_ofNat hfits]
          rfl
        · rw [if_pos (hge.mpr (by omega)), if_neg (mt hholds.mp hfits)]

theorem skipPlus_eq (p : Bytes) : skipPlus p = if (readSign p).1 then p else (readSign p).2 := by
  fun_cases readSign p with
  | case1 => rfl
  | case2 => rfl
  | case3 c hplus =>
    rw [if_neg Bool.false_ne_true, skipPlus]
    exact hplus

theorem strtoull_eq (c : Bytes) :
    strtoull c =
      match scan charIsSpace c with
      | none => .range 0 none
      | some sub =>
        if sub.negative = false ∧ digitsValue sub.digits < 2 ^ 64 then
          .converted (digitsValue sub.digits) (c.length - sub.rest.length)
        else .range 0 none := by
  rw [strtoull, scan, skipPlus_eq]
  rcases hsign : readSign (c.dropWhile charIsSpace) with ⟨negative, p⟩
  dsimp only
  cases negative with
  | true =>
    -- a minus sign is not skipped, and no digit
    obtain ⟨sign, hmeans, hdrop⟩ := readSign_sound hsign
    obtain rfl : sign = [45] := hmeans
    have hstop : (c.dropWhile charIsSpace).takeWhile charIsDigit = [] := by
      rw [hdrop]
      rfl
    rw [if_pos rfl, readDigits_digits, if_pos (.inl hstop)]
    split_ifs with hnone
    · rfl
    · simp only [Bool.true_eq_false, false_and, if_false]
  | false =>
    rw [if_neg Bool.false_ne_true, readDigits_digits]
    generalize p.dropWhile charIsDigit = rest
    generalize p.takeWhile charIsDigit = digits
    by_cases hnone : digits = []
    · rw [if_pos (.inl hnone), if_pos hnone]
    · rw [if_neg hnone]
      dsimp only
      by_cases hlarge : 2 ^ 64 ≤ digitsValue digits
      · rw [if_pos (.inr hlarge), if_neg (fun h => not_le.mpr h.2 hlarge)]
      · rw [if_neg (not_or.mpr ⟨hnone, hlarge⟩), if_pos ⟨rfl, not_le.mp hlarge⟩]
        dsimp only
        rw [UInt64.toNat_ofNat_of_lt' (not_le.mp hlarge)]

end Own

/-! ### What is accepted -/

variable {T : IntType}

section Accepts

variable {space : UInt8 → Bool} (hspace : ∀ c, space c = true → isCSpace c = true)

theorem mem_minus_iff {lead sign digits : Bytes} (hlead : ∀ x ∈ lead, isCSpace x = true)
    (hsign : IsSign negative sign) (hdigits : ∀ x ∈ digits, charIsDigit x = true) :
    45 ∈ lead ++ (sign ++ digits) ↔ negative = true := by
  constructor
  · intro h
    rcases List.mem_append.mp h with h | h
    · cases hlead 45 h
    rcases List.mem_append.mp h with h | h
    · rcases mem_isSign hsign h with h | h
      · cases h
      · exact h.2
    · cases hdigits 45 h
  · rintro rfl
    obtain rfl : sign = [45] := hsign
    simp

include hspace in
theorem parsePostValidate_converted (h : Begins space c sub) (refuseNegative : Bool) (v w : Int) :
    parsePostValidate c refuseNegative (.converted v (c.length - sub.rest.length)) = .ok w ↔
      (refuseNegative = true → sub.negative = false) ∧ (∀ x ∈ sub.rest, charIsSpace x = true) ∧ w = v := by
  obtain ⟨lead, sign, hc, hlead, hsign, hne, hdigits, -⟩ := h
  have hsplit : c = (lead ++ (sign ++ sub.digits)) ++ sub.rest := by rw [hc, List.append_assoc, List.append_assoc]
  have hstop : c.length - sub.rest.length = (lead ++ (sign ++ sub.digits)).length := by
    rw [hsplit, List.length_append, Nat.add_sub_cancel]
  have hread : lead ++ (sign ++ sub.digits) ≠ [] := by simp [hne]
  have hminus := mem_minus_iff (fun x hx => hspace x (hlead x hx)) hsign hdigits
  rw [hstop, parsePostValidate, if_neg (mt List.length_eq_zero_iff.mp hread), hsplit, List.take_left, List.drop_left]
  by_cases hrefuse : refuseNegative = true ∧ 45 ∈ lead ++ (sign ++ sub.digits)
  · rw [if_pos hrefuse]
    refine iff_of_false (fun h => by cases h) fun h => ?_
    rw [hminus.mp hrefuse.2] at h
    cases h.1 hrefuse.1
  · have hnegative : refuseNegative = true → sub.negative = false := by
      intro hr
      rw [← Bool.not_eq_true]
      exact fun hn => hrefuse ⟨hr, hminus.mpr hn⟩
    rw [if_neg hrefuse]
    dsimp only
    by_cases htrail : ∀ x ∈ sub.rest, charIsSpace x = true
    · have hend : ¬(lead ++ (sign ++ sub.digits) ++ sub.rest = [] ∨ sub.rest.dropWhile charIsSpace ≠ []) := by
        rintro (h | h)
        · exact hread (List.append_eq_nil_iff.mp h).1
        · exact h (List.dropWhile_eq_nil_iff.mpr htrail)
      rw [if_neg hend, Except.ok.injEq]
      exact ⟨fun h => ⟨hnegative, htrail, h.symm⟩, fun h => h.2.2.symm⟩
    · rw [if_pos (.inr (mt List.dropWhile_eq_nil_iff.mp htrail))]
      exact iff_of_false (fun h => by cases h) fun h => htrail h.2.1

/-- What `strToInteger` needs of a conversion. -/
structure Serves (space : UInt8 → Bool) (T : IntType) (c : Bytes) (conv : Conversion) : Prop where
  nothing : scan space c = none → (∃ v stop, conv = .range v stop) ∨ conv = .converted 0 0
  number : ∀ sub, scan space c = some sub → (T.signed = false → sub.negative = false) → T.Holds (subjectValue sub) →
    conv = .converted (subjectValue sub) (c.length - sub.rest.length)
  tooLong : ∀ sub, scan space c = some sub → (T.signed = false → sub.negative = false) → ¬T.Holds (subjectValue sub) →
    ∃ v stop, conv = .range v stop
  negative : ∀ sub, scan space c = some sub → T.signed = false → sub.negative = true →
    (∃ v stop, conv = .range v stop) ∨ ∃ v, conv = .converted v (c.length - sub.rest.length)

theorem charIsDigit_of_charIsSpace {c : UInt8} (h : charIsSpace c = true) : charIsDigit c = false := by
  rw [Bool.eq_false_iff]
  intro hdigit
  exact absurd (isCSpace_of_charIsSpace h) (Bool.eq_false_iff.mp (isCSpace_digit hdigit))

include hspace in
theorem numeral_iff_scan (signed : Bool) (c : Bytes) (v : Int) (rest : Bytes) :
    (Numeral space signed c v rest ∧ ∀ x ∈ rest.head?, charIsDigit x = false) ↔
      ∃ sub, scan space c = some sub ∧ (signed = false → sub.negative = false) ∧ v = subjectValue sub ∧ rest = sub.rest := by
  constructor
  · rintro ⟨⟨lead, sign, digits, hc, hlead, hsign, hne, hdigits, hv⟩, hrest⟩
    have hmeans : IsSign (decide (sign = [45])) sign := by
      rcases hsign with rfl | rfl | ⟨-, rfl⟩
      · exact .inl rfl
      · exact .inr rfl
      · rfl
    have hbegins : Begins space c ⟨decide (sign = [45]), digits, rest⟩ := ⟨lead, sign, hc, hlead, hmeans, hne, hdigits, hrest⟩
    refine ⟨_, scan_complete hspace hbegins, ?_, ?_, rfl⟩
    · intro hunsigned
      rcases hsign with rfl | rfl | ⟨hsigned, rfl⟩
      · rfl
      · rfl
      · rw [hunsigned] at hsigned
        cases hsigned
    · rw [hv, subjectValue]
      simp only [decide_eq_true_eq]
  · rintro ⟨sub, hscan, hunsigned, rfl, rfl⟩
    obtain ⟨lead, sign, hc, hlead, hsign, hne, hdigits, hrest⟩ := scan_sound hscan
    refine ⟨⟨lead, sign, sub.digits, hc, hlead, ?_, hne, hdigits, ?_⟩, hrest⟩
    · rcases hneg : sub.negative with _ | _
      · rw [hneg] at hsign
        exact hsign.imp_right .inl
      · refine .inr (.inr ⟨?_, (isSign_minus_iff hsign).mpr hneg⟩)
        rw [hneg] at hunsigned
        simpa using hunsigned
    · rw [subjectValue]
      simp only [isSign_minus_iff hsign]

include hspace in
theorem spells_iff_scan (T : IntType) (c : Bytes) (v : Int) :
    Spells space T c v ↔
      ∃ sub, scan space c = some sub ∧ (T.signed = false → sub.negative = false) ∧
        (∀ x ∈ sub.rest, charIsSpace x = true) ∧ v = subjectValue sub ∧ T.Holds v := by
  constructor
  · rintro ⟨trail, hnumeral, htrail, hholds⟩
    have hrest : ∀ x ∈ trail.head?, charIsDigit x = false :=
      fun x hx => charIsDigit_of_charIsSpace (htrail x (List.mem_of_mem_head? hx))
    obtain ⟨sub, hscan, hunsigned, hv, rfl⟩ := (numeral_iff_scan hspace T.signed c v trail).mp ⟨hnumeral, hrest⟩
    exact ⟨sub, hscan, hunsigned, htrail, hv, hholds⟩
  · rintro ⟨sub, hscan, hunsigned, htrail, hv, hholds⟩
    have hnumeral := (numeral_iff_scan hspace T.signed c v sub.rest).mpr ⟨sub, hscan, hunsigned, hv, rfl⟩
    exact ⟨sub.rest, hnumeral.1, htrail, hholds⟩

include hspace in
theorem Serves.accepts {conv : Conversion} (h : Serves space T c conv) (v : Int) :
    parsePostValidate c (!T.signed) conv = .ok v ↔ Spells space T c v := by
  rw [spells_iff_scan hspace]
  have hrange : ∀ conv : Conversion, (∃ v stop, conv = .range v stop) → ¬parsePostValidate c (!T.signed) conv = .ok v := by
    rintro conv ⟨w, stop, rfl⟩ hok
    cases hok
  rcases hscan : scan space c with _ | sub
  · refine iff_of_false ?_ (by rintro ⟨sub, hsub, -⟩; cases hsub)
    rcases h.nothing hscan with hconv | rfl
    · exact hrange conv hconv
    · rw [parsePostValidate, if_pos rfl]
      exact fun hok => by cases hok
  · have hbegins := scan_sound hscan
    by_cases hallowed : T.signed = false → sub.negative = false
    · by_cases hholds : T.Holds (subjectValue sub)
      · rw [h.number sub hscan hallowed hholds, parsePostValidate_converted hspace hbegins]
        constructor
        · rintro ⟨-, htrail, rfl⟩
          exact ⟨sub, rfl, hallowed, htrail, rfl, hholds⟩
        · rintro ⟨sub', hsub, -, htrail, hv, -⟩
          cases hsub
          exact ⟨fun hs => hallowed (by simpa using hs), htrail, hv⟩
      · refine iff_of_false (hrange conv (h.tooLong sub hscan hallowed hholds)) ?_
        rintro ⟨sub', hsub, -, -, rfl, hv⟩
        cases hsub
        exact hholds hv
    · rw [Classical.not_imp, Bool.not_eq_false] at hallowed
      refine iff_of_false ?_ ?_
      · rcases h.negative sub hscan hallowed.1 hallowed.2 with hconv | ⟨w, rfl⟩
        · exact hrange conv hconv
        · rw [parsePostValidate_converted hspace hbegins, hallowed.1, hallowed.2]
          exact fun hok => Bool.noConfusion (hok.1 rfl)
      · rintro ⟨sub', hsub, hnegative, -⟩
        cases hsub
        exact absurd (hnegative hallowed.1) (by rw [hallowed.2]; decide)

end Accepts

theorem Standard.strtoll_serves (c : Bytes) : Serves isCSpace .long c (strtoll c) where
  nothing hscan := by
    rw [strtoll, hscan]
    exact .inr rfl
  number sub hscan _ hholds := by
    rw [IntType.holds_long] at hholds
    rw [strtoll, hscan]
    dsimp only
    rw [if_neg (not_lt.mpr hholds.1), if_neg (not_le.mpr hholds.2)]
  tooLong sub hscan _ hholds := by
    rw [IntType.holds_long] at hholds
    rw [strtoll, hscan]
    dsimp only
    split_ifs with hlower hupper
    · exact ⟨_, _, rfl⟩
    · exact ⟨_, _, rfl⟩
    · exact absurd ⟨not_lt.mp hlower, not_le.mp hupper⟩ hholds
  negative _ _ hunsigned := by cases hunsigned

theorem subjectValue_of_not_negative (h : sub.negative = false) : subjectValue sub = digitsValue sub.digits := by
  rw [subjectValue, h, if_neg Bool.false_ne_true]

theorem Standard.strtoull_serves (c : Bytes) : Serves isCSpace .unsignedLong c (strtoull c) where
  nothing hscan := by
    rw [strtoull, hscan]
    exact .inr rfl
  number sub hscan hnegative hholds := by
    have hvalue := subjectValue_of_not_negative (hnegative rfl)
    rw [IntType.holds_unsignedLong] at hholds
    rw [strtoull, hscan]
    dsimp only
    rw [if_neg (by omega), Int.emod_eq_of_lt hholds.1 hholds.2]
  tooLong sub hscan hnegative hholds := by
    have hvalue := subjectValue_of_not_negative (hnegative rfl)
    rw [IntType.holds_unsignedLong] at hholds
    rw [strtoull, hscan]
    dsimp only
    rw [if_pos (by omega)]
    exact ⟨_, _, rfl⟩
  negative sub hscan _ _ := by
    rw [strtoull, hscan]
    dsimp only
    split_ifs
    · exact .inl ⟨_, _, rfl⟩
    · exact .inr ⟨_, rfl⟩

theorem Own.strtoll_serves (c : Bytes) : Serves charIsSpace .long c (strtoll c) where
  nothing hscan := by
    rw [strtoll_eq, hscan]
    exact .inl ⟨_, _, rfl⟩
  number sub hscan _ hholds := by
    rw [strtoll_eq, hscan]
    exact if_pos hholds
  tooLong sub hscan _ hholds := by
    rw [strtoll_eq, hscan]
    exact ⟨_, _, if_neg hholds⟩
  negative _ _ hunsigned := by cases hunsigned

theorem Own.strtoull_serves (c : Bytes) : Serves charIsSpace .unsignedLong c (strtoull c) where
  nothing hscan := by
    rw [strtoull_eq, hscan]
    exact .inl ⟨_, _, rfl⟩
  number sub hscan hnegative hholds := by
    have hvalue := subjectValue_of_not_negative (hnegative rfl)
    rw [IntType.holds_unsignedLong] at hholds
    rw [strtoull_eq, hscan, hvalue]
    exact if_pos ⟨hnegative rfl, by omega⟩
  tooLong sub hscan hnegative hholds := by
    have hvalue := subjectValue_of_not_negative (hnegative rfl)
    rw [IntType.holds_unsignedLong] at hholds
    rw [strtoull_eq, hscan]
    exact ⟨_, _, if_neg (by omega)⟩
  negative sub hscan _ hnegative := by
    rw [strtoull_eq, hscan]
    exact .inl ⟨_, _, if_neg (by simp [hnegative])⟩

/-! ### The types -/

variable {v : Int}

namespace IntType

def widened (T : IntType) : IntType := if T.signed then long else unsignedLong

theorem signed_widened (T : IntType) : T.widened.signed = T.signed := by
  rw [widened]
  split_ifs with h
  · exact h.symm
  · exact (Bool.eq_false_iff.mpr h).symm

theorem holds_widened (h : T.Holds v) : T.widened.Holds v := by
  have hle := T.bits_le
  rw [Holds] at h
  rw [widened]
  split_ifs at h ⊢ with hsigned
  · have hpow : (2 : Int) ^ (T.bits - 1) ≤ 2 ^ 63 := pow_le_pow_right₀ (by decide) (by omega)
    rw [holds_long]
    omega
  · have hpow : (2 : Int) ^ T.bits ≤ 2 ^ 64 := pow_le_pow_right₀ (by decide) hle
    rw [holds_unsignedLong]
    omega

theorem convert_eq_iff (T : IntType) (v : Int) : T.convert v = v ↔ T.Holds v := by
  have hpos := T.bits_pos
  rw [convert, Holds]
  split_ifs with hsigned
  · have hdouble : ((2 ^ T.bits : Nat) : Int) = 2 * 2 ^ (T.bits - 1) := by
      rw [← pow_succ', Nat.sub_add_cancel hpos]
      push_cast
      rfl
    rw [Int.bmod_eq_iff (Nat.two_pow_pos _), sub_self, hdouble]
    simp only [dvd_zero, and_true]
    omega
  · constructor
    · intro h
      rw [← h]
      exact ⟨Int.emod_nonneg _ (by positivity), Int.emod_lt_of_pos _ (by positivity)⟩
    · intro h
      exact Int.emod_eq_of_lt h.1 h.2

end IntType

theorem spells_widened_iff {space : UInt8 → Bool} (T : IntType) (c : Bytes) (v : Int) :
    Spells space T c v ↔ Spells space T.widened c v ∧ T.Holds v := by
  constructor
  · rintro ⟨trail, hnumeral, htrail, hholds⟩
    rw [← T.signed_widened] at hnumeral
    exact ⟨⟨trail, hnumeral, htrail, IntType.holds_widened hholds⟩, hholds⟩
  · rintro ⟨⟨trail, hnumeral, htrail, -⟩, hholds⟩
    rw [T.signed_widened] at hnumeral
    exact ⟨trail, hnumeral, htrail, hholds⟩

theorem strToLong_ok_iff (s : Bytes) (v : Int) : strToLong s = .ok v ↔ Spells isCSpace .long (cString s) v :=
  (Standard.strtoll_serves (cString s)).accepts (fun _ h => h) v

theorem strToUnsignedLong_ok_iff (s : Bytes) (v : Int) :
    strToUnsignedLong s = .ok v ↔ Spells isCSpace .unsignedLong (cString s) v :=
  (Standard.strtoull_serves (cString s)).accepts (fun _ h => h) v

theorem strToNarrow_ok_iff (T : IntType) (s : Bytes) (v : Int) : strToNarrow T s = .ok v ↔ Spells isCSpace T (cString s) v := by
  have hwide : ∀ w, (if T.signed then strToLong s else strToUnsignedLong s) = .ok w ↔
      Spells isCSpace T.widened (cString s) w := by
    intro w
    rw [IntType.widened]
    split_ifs
    · exact strToLong_ok_iff s w
    · exact strToUnsignedLong_ok_iff s w
  rw [strToNarrow, spells_widened_iff, ← hwide]
  rcases (if T.signed then strToLong s else strToUnsignedLong s) with pos | tmp
  · exact iff_of_false (fun h => by cases h) fun h => by cases h.1
  · dsimp only
    rw [Except.ok.injEq]
    split_ifs with hconvert
    · refine iff_of_false (fun h => by cases h) ?_
      rintro ⟨rfl, hholds⟩
      exact hconvert ((T.convert_eq_iff tmp).mpr hholds)
    · rw [ne_eq, not_not] at hconvert
      rw [hconvert, Except.ok.injEq]
      refine (and_iff_left_of_imp ?_).symm
      rintro rfl
      exact (T.convert_eq_iff tmp).mp hconvert

theorem strToInteger_ok_iff (lib : Library) (T : Target) (s : Bytes) (v : Int) :
    strToInteger lib T s = .ok v ↔ Spells (lib.space T) T.type (cString s) v := by
  cases T with
  | narrow T => exact strToNarrow_ok_iff T s v
  | long => exact strToLong_ok_iff s v
  | unsignedLong => exact strToUnsignedLong_ok_iff s v
  | longLong =>
    cases lib with
    | standard => exact strToLong_ok_iff s v
    | own => exact (Own.strtoll_serves (cString s)).accepts (fun _ => isCSpace_of_charIsSpace) v
  | unsignedLongLong =>
    cases lib with
    | standard => exact strToUnsignedLong_ok_iff s v
    | own => exact (Own.strtoull_serves (cString s)).accepts (fun _ => isCSpace_of_charIsSpace) v

/-! ### The grammar -/

section Grammar

variable {space : UInt8 → Bool} (hlower : ∀ c, charIsSpace c = true → space c = true)
  (hupper : ∀ c, space c = true → isCSpace c = true)

theorem odd_of_isCSpace {c : UInt8} (h : isCSpace c = true) (hspace : charIsSpace c = false) : c = 11 ∨ c = 12 := by
  rw [isCSpace, Bool.or_eq_true, Bool.and_eq_true, beq_iff_eq, decide_eq_true_eq, decide_eq_true_eq, UInt8.le_iff_toNat_le,
    UInt8.le_iff_toNat_le] at h
  rw [charIsSpace] at hspace
  simp only [Bool.or_eq_false_iff, beq_eq_false_iff_ne, ne_eq, ← UInt8.toNat_inj] at hspace
  simp only [← UInt8.toNat_inj] at h ⊢
  have hnumbers : UInt8.toNat 9 = 9 ∧ UInt8.toNat 10 = 10 ∧ UInt8.toNat 11 = 11 ∧ UInt8.toNat 12 = 12 ∧ UInt8.toNat 13 = 13 :=
    ⟨rfl, rfl, rfl, rfl, rfl⟩
  omega

theorem numeral_mono {space' : UInt8 → Bool} (h : ∀ c, space c = true → space' c = true) {signed : Bool} {s rest : Bytes}
    (hnumeral : Numeral space signed s v rest) : Numeral space' signed s v rest := by
  obtain ⟨lead, sign, digits, hs, hlead, hsign⟩ := hnumeral
  exact ⟨lead, sign, digits, hs, fun c hc => h c (hlead c hc), hsign⟩

variable {s : Bytes}

theorem spells_mono {space' : UInt8 → Bool} (h : ∀ c, space c = true → space' c = true)
    (hspells : Spells space T s v) : Spells space' T s v := by
  obtain ⟨trail, hnumeral, htrail⟩ := hspells
  exact ⟨trail, numeral_mono h hnumeral, htrail⟩

include hupper in
theorem zero_notMem_of_spells (h : Spells space T s v) : 0 ∉ s := by
  obtain ⟨trail, ⟨lead, sign, digits, rfl, hlead, hsign, -, hdigits, -⟩, htrail, -⟩ := h
  simp only [List.mem_append, not_or]
  refine ⟨?_, ?_, ?_, ?_⟩
  · intro hmem
    cases hupper 0 (hlead 0 hmem)
  · rcases hsign with rfl | rfl | ⟨-, rfl⟩ <;> decide
  · intro hmem
    cases hdigits 0 hmem
  · intro hmem
    cases htrail 0 hmem

theorem not_odd_of_grammar (h : Grammar T s v) : ¬OddStart s := by
  obtain ⟨trail, ⟨lead, sign, digits, rfl, hlead, hsign, hne, hdigits, -⟩, -⟩ := h
  have hsigns : ∀ x ∈ sign, x = 43 ∨ x = 45 := by
    rcases hsign with rfl | rfl | ⟨-, rfl⟩ <;> simp
  have hhead := isCSpace_head hsigns hne hdigits trail
  have hstop : ∀ x ∈ (sign ++ (digits ++ trail)).head?, charIsSpace x = false := by
    intro x hx
    rw [Bool.eq_false_iff]
    intro hx'
    exact absurd (isCSpace_of_charIsSpace hx') (Bool.eq_false_iff.mp (hhead x hx))
  rw [OddStart, (takeWhile_append_stop hlead hstop).2]
  rintro ⟨c, hc, rfl | rfl⟩
  · cases hhead 11 hc
  · cases hhead 12 hc

include hupper in
theorem grammar_of_spells (h : Spells space T s v) (hodd : ¬OddStart s) : Grammar T s v := by
  obtain ⟨trail, ⟨lead, sign, digits, rfl, hlead, hnumeral⟩, htrail⟩ := h
  refine ⟨trail, ⟨lead, sign, digits, rfl, ?_, hnumeral⟩, htrail⟩
  rw [← List.dropWhile_eq_nil_iff]
  by_contra hne
  obtain ⟨c, rest, hcons⟩ := List.exists_cons_of_ne_nil hne
  have hmem : c ∈ lead := (List.dropWhile_sublist _).subset (by rw [hcons]; exact List.mem_cons_self)
  have hspace : charIsSpace c = false := head?_dropWhile_false charIsSpace lead c (by rw [hcons]; rfl)
  refine hodd ⟨c, ?_, odd_of_isCSpace (hupper c (hlead c hmem)) hspace⟩
  rw [List.dropWhile_append, hcons]
  rfl

theorem cString_of_notMem (h : 0 ∉ s) : cString s = s := by
  refine List.takeWhile_eq_self_iff.mpr fun c hc => decide_eq_true ?_
  rintro rfl
  exact h hc

theorem cString_append_zero {t : Bytes} (h : 0 ∉ t) (rest : Bytes) : cString (t ++ 0 :: rest) = t := by
  refine (takeWhile_append_stop (fun c hc => decide_eq_true ?_) fun c hc => ?_).1
  · rintro rfl
    exact h hc
  · obtain rfl : 0 = c := Option.some.inj hc
    rfl

theorem exists_append_zero (h : 0 ∈ s) : ∃ rest, s = cString s ++ 0 :: rest := by
  obtain ⟨t, rest, rfl, ht⟩ := List.eq_append_cons_of_mem h
  exact ⟨rest, by rw [cString_append_zero ht]⟩

include hlower hupper in
theorem spells_cString_iff (T : IntType) (s : Bytes) :
    (∀ v, Spells space T (cString s) v ↔ Grammar T s v) ↔ ¬(CutShort space T s ∨ OddlyLed space T s) := by
  constructor
  · rintro h (⟨t, rest, v, rfl, hspells⟩ | ⟨⟨v, hspells⟩, hodd⟩)
    · have hgrammar : Grammar T (t ++ 0 :: rest) v := by
        rw [← h v, cString_append_zero (zero_notMem_of_spells hupper hspells)]
        exact hspells
      exact zero_notMem_of_spells (fun _ => isCSpace_of_charIsSpace) hgrammar
        (List.mem_append_right t List.mem_cons_self)
    · have hgrammar : Grammar T s v := by
        rw [← h v, cString_of_notMem (zero_notMem_of_spells hupper hspells)]
        exact hspells
      exact not_odd_of_grammar hgrammar hodd
  · intro hslip v
    rw [not_or] at hslip
    constructor
    · intro hspells
      by_cases hzero : 0 ∈ s
      · obtain ⟨rest, hs⟩ := exists_append_zero hzero
        exact absurd ⟨_, rest, v, hs, hspells⟩ hslip.1
      · rw [cString_of_notMem hzero] at hspells
        exact grammar_of_spells hupper hspells fun hodd => hslip.2 ⟨⟨v, hspells⟩, hodd⟩
    · intro hgrammar
      rw [cString_of_notMem (zero_notMem_of_spells (fun _ => isCSpace_of_charIsSpace) hgrammar)]
      exact spells_mono hlower hgrammar

end Grammar

/-! ### The two libraries -/

theorem Library.charIsSpace_le_space (lib : Library) (T : Target) (c : UInt8) : charIsSpace c = true → lib.space T c = true := by
  fun_cases lib.space T with
  | case1 => exact id
  | case2 => exact isCSpace_of_charIsSpace
  | case3 => exact id
  | case4 => exact isCSpace_of_charIsSpace
  | case5 => exact isCSpace_of_charIsSpace

theorem Library.space_le_isCSpace (lib : Library) (T : Target) (c : UInt8) : lib.space T c = true → isCSpace c = true := by
  fun_cases lib.space T with
  | case1 => exact isCSpace_of_charIsSpace
  | case2 => exact id
  | case3 => exact isCSpace_of_charIsSpace
  | case4 => exact id
  | case5 => exact id

theorem spells_charIsSpace_iff (T : IntType) (c : Bytes) :
    (∀ v, Spells charIsSpace T c v ↔ Spells isCSpace T c v) ↔ ¬OddlyLed isCSpace T c := by
  constructor
  · rintro h ⟨⟨v, hspells⟩, hodd⟩
    exact not_odd_of_grammar ((h v).mpr hspells) hodd
  · intro hodd v
    constructor
    · exact spells_mono fun _ => isCSpace_of_charIsSpace
    · intro hspells
      exact grammar_of_spells (fun _ h => h) hspells fun hled => hodd ⟨⟨v, hspells⟩, hled⟩

theorem own_eq_standard_iff (T : Target) (s : Bytes) :
    (∀ v, strToInteger .own T s = .ok v ↔ strToInteger .standard T s = .ok v) ↔
      ¬(T.IsLongest ∧ OddlyLed isCSpace T.type (cString s)) := by
  simp only [strToInteger_ok_iff]
  cases T with
  | longLong => exact (spells_charIsSpace_iff .long (cString s)).trans (not_congr ⟨fun h => ⟨trivial, h⟩, And.right⟩)
  | unsignedLongLong => exact (spells_charIsSpace_iff .unsignedLong (cString s)).trans (not_congr ⟨fun h => ⟨trivial, h⟩, And.right⟩)
  | narrow T => exact iff_of_true (fun _ => Iff.rfl) And.left
  | long => exact iff_of_true (fun _ => Iff.rfl) And.left
  | unsignedLong => exact iff_of_true (fun _ => Iff.rfl) And.left

theorem scan_mono {space space' : UInt8 → Bool} (h : ∀ c, space c = true → space' c = true)
    (hspace' : ∀ c, space' c = true → isCSpace c = true) (hscan : scan space c = some sub) :
    scan space' c = some sub := by
  obtain ⟨lead, sign, hc, hlead, hsign⟩ := scan_sound hscan
  exact scan_complete hspace' ⟨lead, sign, hc, fun x hx => h x (hlead x hx), hsign⟩

theorem Standard.strtoll_ne (c : Bytes) : strtoll c ≠ .range 0 none := by
  rw [strtoll]
  split
  · exact fun h => by cases h
  · dsimp only
    split_ifs <;> exact fun h => by cases h

theorem Standard.strtoull_ne (c : Bytes) : strtoull c ≠ .range 0 none := by
  rw [strtoull]
  split
  · exact fun h => by cases h
  · dsimp only
    split_ifs <;> exact fun h => by cases h

theorem starts_iff_scan (T : IntType) (c : Bytes) :
    Starts T c ↔ ∃ sub, scan charIsSpace c = some sub ∧ (T.signed = false → sub.negative = false) ∧ T.Holds (subjectValue sub) := by
  constructor
  · rintro ⟨v, rest, hnumeral, hrest, hholds⟩
    obtain ⟨sub, hscan, hunsigned, rfl, -⟩ :=
      (numeral_iff_scan (fun _ => isCSpace_of_charIsSpace) T.signed c v rest).mp ⟨hnumeral, hrest⟩
    exact ⟨sub, hscan, hunsigned, hholds⟩
  · rintro ⟨sub, hscan, hunsigned, hholds⟩
    obtain ⟨hnumeral, hrest⟩ :=
      (numeral_iff_scan (fun _ => isCSpace_of_charIsSpace) T.signed c _ sub.rest).mpr ⟨sub, hscan, hunsigned, rfl, rfl⟩
    exact ⟨_, _, hnumeral, hrest, hholds⟩

theorem conversion_eq_iff {own standard : Conversion} (hown : Serves charIsSpace T c own)
    (hstandard : Serves isCSpace T c standard) (hfailed : ¬Starts T c → own = .range 0 none) (hne : standard ≠ .range 0 none) :
    own = standard ↔ Starts T c := by
  constructor
  · intro heq
    by_contra hstarts
    exact hne (heq.symm.trans (hfailed hstarts))
  · intro hstarts
    obtain ⟨sub, hscan, hunsigned, hholds⟩ := (starts_iff_scan T c).mp hstarts
    have hscan' := scan_mono (fun _ => isCSpace_of_charIsSpace) (fun _ h => h) hscan
    rw [hown.number sub hscan hunsigned hholds, hstandard.number sub hscan' hunsigned hholds]

theorem strtoll_eq_iff (c : Bytes) : Own.strtoll c = Standard.strtoll c ↔ Starts .long c := by
  refine conversion_eq_iff (Own.strtoll_serves c) (Standard.strtoll_serves c) ?_ (Standard.strtoll_ne c)
  intro hstarts
  rw [starts_iff_scan] at hstarts
  rw [Own.strtoll_eq]
  rcases hscan : scan charIsSpace c with _ | sub
  · rfl
  · exact if_neg fun hholds => hstarts ⟨sub, hscan, Bool.noConfusion, hholds⟩

theorem strtoull_eq_iff (c : Bytes) : Own.strtoull c = Standard.strtoull c ↔ Starts .unsignedLong c := by
  refine conversion_eq_iff (Own.strtoull_serves c) (Standard.strtoull_serves c) ?_ (Standard.strtoull_ne c)
  intro hstarts
  rw [starts_iff_scan] at hstarts
  rw [Own.strtoull_eq]
  rcases hscan : scan charIsSpace c with _ | sub
  · rfl
  · refine if_neg fun hfits => hstarts ⟨sub, hscan, fun _ => hfits.1, ?_⟩
    rw [IntType.holds_unsignedLong, subjectValue_of_not_negative hfits.1]
    omega

/-! ### The parsers that other models use -/

theorem scanSubject_eq (s : Bytes) : scanSubject s = scan isCSpace (cString s) := rfl

theorem strToLong_eq_some_iff (lib : Library) (s : Bytes) (v : Int) :
    Afl.strToLong s = some v ↔ strToInteger lib .long s = .ok v := by
  rw [strToInteger_ok_iff]
  show _ ↔ Spells isCSpace .long (cString s) v
  rw [spells_iff_scan (fun _ h => h), Afl.strToLong, scanSubject_eq]
  rcases scan isCSpace (cString s) with _ | sub
  · simp
  · show (if subjectValue sub < -2 ^ 63 ∨ 2 ^ 63 ≤ subjectValue sub then none
      else if sub.rest.all charIsSpace then some (subjectValue sub) else none) = some v ↔ _
    simp only [Option.some.injEq, exists_eq_left', IntType.holds_long, ← List.all_eq_true]
    split_ifs with hrange htrail
    · refine iff_of_false (fun h => by cases h) ?_
      rintro ⟨-, -, rfl, hholds⟩
      omega
    · rw [Option.some.injEq]
      exact ⟨fun h => ⟨Bool.noConfusion, htrail, h.symm, by omega⟩, fun h => h.2.2.1.symm⟩
    · exact iff_of_false (fun h => by cases h) fun h => htrail h.2.1

theorem strToULong_eq_some_iff (lib : Library) (s : Bytes) (n : Nat) :
    Afl.strToULong s = some n ↔ strToInteger lib .unsignedLong s = .ok n := by
  rw [strToInteger_ok_iff]
  show _ ↔ Spells isCSpace .unsignedLong (cString s) n
  rw [spells_iff_scan (fun _ h => h), Afl.strToULong, scanSubject_eq]
  rcases scan isCSpace (cString s) with _ | sub
  · simp
  · dsimp only
    simp only [Option.some.injEq, exists_eq_left', IntType.holds_unsignedLong, ← List.all_eq_true]
    split_ifs with hrange hnegative htrail
    · refine iff_of_false (fun h => by cases h) ?_
      rintro ⟨hunsigned, -, hvalue, hholds⟩
      rw [subjectValue_of_not_negative (hunsigned rfl)] at hvalue
      omega
    · refine iff_of_false (fun h => by cases h) fun h => ?_
      rw [hnegative] at h
      cases h.1 rfl
    · have hvalue := subjectValue_of_not_negative (Bool.eq_false_iff.mpr hnegative)
      rw [Option.some.injEq, hvalue]
      exact ⟨fun h => ⟨fun _ => Bool.eq_false_iff.mpr hnegative, htrail, by omega, by omega⟩, fun h => by omega⟩
    · exact iff_of_false (fun h => by cases h) fun h => htrail h.2.1

def IntType.int32 : IntType := ⟨true, 32, by decide, by decide⟩

theorem strToInt32_eq_some_iff (lib : Library) (s : Bytes) (iv : Int32) :
    strToInt32 s = some iv ↔ strToInteger lib (.narrow .int32) s = .ok iv.toInt := by
  have hholds : IntType.int32.Holds iv.toInt := ⟨iv.le_toInt, iv.toInt_lt⟩
  have hlong : Afl.strToLong s = some iv.toInt ↔ strToInteger lib (.narrow .int32) s = .ok iv.toInt := by
    rw [strToLong_eq_some_iff lib, strToInteger_ok_iff, strToInteger_ok_iff]
    exact ((spells_widened_iff .int32 (cString s) iv.toInt).trans (and_iff_left hholds)).symm
  rw [← hlong, strToInt32]
  rcases Afl.strToLong s with _ | v
  · simp
  · dsimp only
    rw [Option.some.injEq]
    constructor
    · intro h
      split_ifs at h with hfits
      rw [← Option.some.inj h, hfits]
    · rintro rfl
      rw [Int32.ofInt_toInt, if_pos rfl]

/-! ### Written numbers -/

theorem grammar_decimal {n : Int} (h : T.Holds n) : Grammar T (decimal n) n := by
  have hdigits := charIsDigit_of_mem_decimalNat n.natAbs
  refine ⟨[], ⟨[], if n < 0 then [45] else [], decimalNat n.natAbs, ?_, List.forall_mem_nil _, ?_, decimalNat_ne_nil _, hdigits, ?_⟩,
    List.forall_mem_nil _, h⟩
  · rw [decimal, List.append_nil, List.nil_append]
    split_ifs <;> rfl
  · split_ifs with hneg
    · rw [IntType.Holds] at h
      split_ifs at h with hsigned
      · exact .inr (.inr ⟨hsigned, rfl⟩)
      · omega
    · exact .inl rfl
  · rw [digitsValue_decimalNat]
    split_ifs with hneg hsign hsign
    · omega
    · exact absurd rfl hsign
    · cases hsign
    · omega

theorem IntType.formatter_decimal (T : IntType) (n : T.Value) : (format (lit "%d") [T.formatter n]).result = decimal n := by
  rw [format_d, formatter]
  have hwide := holds_widened n.2
  rw [widened] at hwide
  split_ifs at hwide ⊢ with hsigned
  · rw [holds_long] at hwide
    rw [FormatSigned.format_decimal, Int64.toInt_ofInt_of_le hwide.1 hwide.2]
  · rw [holds_unsignedLong] at hwide
    have hlt : n.1.toNat < 2 ^ 64 := by omega
    rw [FormatUnsigned.format_decimal, UInt64.ofInt, Int.emod_eq_of_lt hwide.1 hwide.2,
      UInt64.toNat_ofNat_of_lt' hlt, decimal, if_neg (not_lt.mpr hwide.1)]
    congr 1
    omega

theorem strToInteger_format (lib : Library) (T : Target) (n : T.type.Value) :
    strToInteger lib T (format (lit "%d") [T.type.formatter n]).result = .ok n := by
  have hgrammar := grammar_decimal n.2
  rw [IntType.formatter_decimal, strToInteger_ok_iff,
    cString_of_notMem (zero_notMem_of_spells (fun _ => isCSpace_of_charIsSpace) hgrammar)]
  exact spells_mono (lib.charIsSpace_le_space T) hgrammar

/-- `strToInteger` keeps to its grammar except for two kinds of strings, and it reads back what is written. The built-in
conversions return what the library's return if and only if they succeed; `strToInteger` sees a difference only where the
white space is odd. -/
theorem strToInteger_iff (lib : Library) (T : Target) (s : Bytes) :
    ((∀ v, strToInteger lib T s = .ok v ↔ Grammar T.type s v) ↔
        ¬(CutShort (lib.space T) T.type s ∨ OddlyLed (lib.space T) T.type s)) ∧
      ((∀ v, strToInteger .own T s = .ok v ↔ strToInteger .standard T s = .ok v) ↔
        ¬(T.IsLongest ∧ OddlyLed isCSpace T.type (cString s))) ∧
      (Own.strtoll (cString s) = Standard.strtoll (cString s) ↔ Starts .long (cString s)) ∧
      (Own.strtoull (cString s) = Standard.strtoull (cString s) ↔ Starts .unsignedLong (cString s)) ∧
      ∀ n : T.type.Value, strToInteger lib T (format (lit "%d") [T.type.formatter n]).result = .ok n := by
  refine ⟨?_, own_eq_standard_iff T s, strtoll_eq_iff _, strtoull_eq_iff _, strToInteger_format lib T⟩
  simp only [strToInteger_ok_iff]
  exact spells_cString_iff (lib.charIsSpace_le_space T) (lib.space_le_isCSpace T) T.type s

theorem strToInteger_null :
    strToInteger .standard .long (lit "12" ++ 0 :: lit "abc") = .ok 12 ∧ ¬Grammar .long (lit "12" ++ 0 :: lit "abc") 12 :=
  ⟨by decide, fun h => zero_notMem_of_spells (fun _ => isCSpace_of_charIsSpace) h (by decide)⟩

end Afl.Integers
