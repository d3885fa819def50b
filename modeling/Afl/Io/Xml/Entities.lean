import Afl.Charset.Utf8
import Afl.String.Parse

/-!
# Entity references

The expansion of entity references in `afl/io/xml/reader.cpp`, with any handler, the handler of
`afl/io/xml/defaultentityhandler.cpp`, and the escaping of `afl/io/xml/writer.cpp`, which it undoes.
-/

namespace Afl.Io.Xml

open Charset

theorem length_of_dropWhile_cons {s r : Bytes} {p : UInt8 → Bool} {ch : UInt8} (h : s.dropWhile p = ch :: r) :
    r.length < s.length := by
  have hle := (List.dropWhile_suffix p (l := s)).length_le
  rw [h, List.length_cons] at hle
  exact hle

/-- `Reader::expandEntities`: the text before a `&` stays, and the handler is asked for the name up to the `;`. When
there is none, the rest stays. -/
def expandEntities (expandEntityReference : Bytes → Bytes) (s : Bytes) : Bytes :=
  match _hamp : s.dropWhile (· ≠ 38) with
  | [] => s
  | _ :: r =>
    match _hsemi : r.dropWhile (· ≠ 59) with
    | [] => s
    | _ :: rest =>
      s.takeWhile (· ≠ 38) ++ expandEntityReference (r.takeWhile (· ≠ 59)) ++
        expandEntities expandEntityReference rest
termination_by s.length
decreasing_by exact (length_of_dropWhile_cons _hsemi).trans (length_of_dropWhile_cons _hamp)

/-! ### The default handler -/

/-- A digit of `strtoul`. -/
def digitValue (base : Nat) (ch : UInt8) : Option Nat :=
  let value :=
    if charIsDigit ch then ch.toNat - 48
    else if charIsLower ch then ch.toNat - 97 + 10
    else if charIsUpper ch then ch.toNat - 65 + 10
    else base
  if value < base then some value else none

/-- The digits of `strtoul`, up to the first character that is none. -/
def digitsLoop (base : Nat) : Nat → Bytes → Nat
  | value, [] => value
  | value, ch :: s =>
    match digitValue base ch with
    | none => value
    | some d => digitsLoop base (base * value + d) s

/-- The prefix that `strtoul` accepts in base 16, if a digit follows. -/
def skipHexPrefix (base : Nat) (s : Bytes) : Bytes :=
  match s with
  | 48 :: x :: ch :: rest =>
    if base = 16 ∧ (x = 120 ∨ x = 88) ∧ (digitValue 16 ch).isSome then ch :: rest else s
  | _ => s

/-- `strtoul(s, 0, base)`: white space, a sign, the digits; out of range it is `ULONG_MAX`. -/
def strtoul (base : Nat) (s : Bytes) : Nat :=
  let s := (cString s).dropWhile isCSpace
  let (negative, s) :=
    match s with
    | 43 :: t => (false, t)
    | 45 :: t => (true, t)
    | s => (false, s)
  let value := digitsLoop base 0 (skipHexPrefix base s)
  if 2 ^ 64 ≤ value then 2 ^ 64 - 1 else if negative then (2 ^ 64 - value) % 2 ^ 64 else value

def DefaultEntityHandler.expandEntityReference (name : Bytes) : Bytes :=
  match name with
  | [] => []
  | 35 :: number =>
    match number with
    | 120 :: ch :: digits => Utf8.append 0 (UInt32.ofNat (strtoul 16 (ch :: digits)))
    | _ => Utf8.append 0 (UInt32.ofNat (strtoul 10 number))
  | _ =>
    if name = lit "lt" then lit "<"
    else if name = lit "gt" then lit ">"
    else if name = lit "apos" then lit "'"
    else if name = lit "quot" then [34]
    else if name = lit "amp" then lit "&"
    else if name = lit "nbsp" then [0xC2, 0xA0]
    else name

/-! ### Escaping -/

/-- A character of `Writer::escape`. -/
def escapeChar (ch : UInt8) : Bytes :=
  if ch = 60 then lit "&lt;"
  else if ch = 62 then lit "&gt;"
  else if ch = 38 then lit "&amp;"
  else if ch = 34 then lit "&quot;"
  else [ch]

def escape (s : Bytes) : Bytes := s.flatMap escapeChar

def isSpecial (ch : UInt8) : Bool := ch == 60 || ch == 62 || ch == 38 || ch == 34

theorem escapeChar_eq {ch : UInt8} (h : isSpecial ch = false) : escapeChar ch = [ch] := by
  simp only [isSpecial, Bool.or_eq_false_iff, beq_eq_false_iff_ne] at h
  simp [escapeChar, h]

theorem length_escapeChar (ch : UInt8) : if isSpecial ch then 1 < (escapeChar ch).length else escapeChar ch = [ch] := by
  split_ifs with h
  · simp only [isSpecial, Bool.or_eq_true, beq_iff_eq] at h
    rcases h with ((rfl | rfl) | rfl) | rfl <;> decide
  · exact escapeChar_eq (Bool.eq_false_iff.mpr h)

theorem escape_cons (ch : UInt8) (s : Bytes) : escape (ch :: s) = escapeChar ch ++ escape s := List.flatMap_cons

theorem length_le_escape (s : Bytes) : s.length ≤ (escape s).length := by
  induction s with
  | nil => exact Nat.le_refl 0
  | cons ch s ih =>
    have hch := length_escapeChar ch
    rw [escape_cons, List.length_append, List.length_cons]
    split_ifs at hch with h
    · omega
    · rw [hch, List.length_singleton]
      omega

theorem escape_eq_iff {s : Bytes} : escape s = s ↔ ∀ ch ∈ s, isSpecial ch = false := by
  induction s with
  | nil => simp [escape]
  | cons ch s ih =>
    have hch := length_escapeChar ch
    rw [escape_cons, List.forall_mem_cons, ← ih]
    split_ifs at hch with h
    · -- the text has become longer
      have hne : escapeChar ch ++ escape s ≠ ch :: s := by
        intro heq
        have hlength := congrArg List.length heq
        have hle := length_le_escape s
        rw [List.length_append, List.length_cons] at hlength
        omega
      simp [hne, h]
    · simp [hch, h]

section

variable {handler : Bytes → Bytes} {s r rest : Bytes} {ch : UInt8}

theorem expandEntities_of_no_amp (hamp : s.dropWhile (· ≠ 38) = []) : expandEntities handler s = s := by
  rw [expandEntities]
  split
  · rfl
  · next h => cases hamp.symm.trans h

theorem expandEntities_of_no_semicolon (hamp : s.dropWhile (· ≠ 38) = ch :: r) (hsemi : r.dropWhile (· ≠ 59) = []) :
    expandEntities handler s = s := by
  rw [expandEntities]
  split
  · rfl
  · next h =>
    cases hamp.symm.trans h
    split
    · rfl
    · next h' => cases hsemi.symm.trans h'

theorem expandEntities_of_semicolon {semi : UInt8} (hamp : s.dropWhile (· ≠ 38) = ch :: r)
    (hsemi : r.dropWhile (· ≠ 59) = semi :: rest) :
    expandEntities handler s =
      s.takeWhile (· ≠ 38) ++ handler (r.takeWhile (· ≠ 59)) ++ expandEntities handler rest := by
  rw [expandEntities]
  split
  · next h => cases hamp.symm.trans h
  · next h =>
    cases hamp.symm.trans h
    split
    · next h' => cases hsemi.symm.trans h'
    · next h' =>
      cases hsemi.symm.trans h'
      rfl

theorem expandEntities_nil : expandEntities handler [] = [] := expandEntities_of_no_amp rfl

theorem expandEntities_cons (hch : ch ≠ 38) (s : Bytes) :
    expandEntities handler (ch :: s) = ch :: expandEntities handler s := by
  have hdrop : (ch :: s).dropWhile (· ≠ 38) = s.dropWhile (· ≠ 38) := List.dropWhile_cons_of_pos (by simpa using hch)
  have htake : (ch :: s).takeWhile (· ≠ 38) = ch :: s.takeWhile (· ≠ 38) :=
    List.takeWhile_cons_of_pos (by simpa using hch)
  cases hamp : s.dropWhile (· ≠ 38) with
  | nil => rw [expandEntities_of_no_amp hamp, expandEntities_of_no_amp (hdrop.trans hamp)]
  | cons amp r =>
    cases hsemi : r.dropWhile (· ≠ 59) with
    | nil =>
      rw [expandEntities_of_no_semicolon hamp hsemi, expandEntities_of_no_semicolon (hdrop.trans hamp) hsemi]
    | cons semi rest =>
      rw [expandEntities_of_semicolon hamp hsemi, expandEntities_of_semicolon (hdrop.trans hamp) hsemi, htake]
      rfl

theorem expandEntities_reference {name : Bytes} (hname : 59 ∉ name) (s : Bytes) :
    expandEntities handler (38 :: (name ++ 59 :: s)) = handler name ++ expandEntities handler s := by
  have hall : ∀ ch ∈ name, decide (ch ≠ 59) = true := by
    intro ch hch
    rw [decide_eq_true_eq]
    rintro rfl
    exact hname hch
  have hsemi : (name ++ 59 :: s).dropWhile (· ≠ 59) = 59 :: s := by
    rw [List.dropWhile_append_of_pos hall]
    rfl
  have htake : (name ++ 59 :: s).takeWhile (· ≠ 59) = name := by
    rw [List.takeWhile_append_of_pos hall, List.takeWhile_cons_of_neg (by decide), List.append_nil]
  rw [expandEntities_of_semicolon (s := 38 :: (name ++ 59 :: s)) rfl hsemi, htake]
  rfl

end

theorem expandEntities_escape (s : Bytes) :
    expandEntities DefaultEntityHandler.expandEntityReference (escape s) = s := by
  induction s with
  | nil => exact expandEntities_nil
  | cons ch s ih =>
    rw [escape_cons]
    have hreference : ∀ name : Bytes, 59 ∉ name → escapeChar ch = 38 :: (name ++ [59]) →
        DefaultEntityHandler.expandEntityReference name = [ch] →
        expandEntities DefaultEntityHandler.expandEntityReference (escapeChar ch ++ escape s) = ch :: s := by
      intro name hname hescape hexpand
      rw [hescape, List.cons_append, List.append_assoc, List.singleton_append, expandEntities_reference hname, hexpand,
        ih, List.singleton_append]
    by_cases hch : isSpecial ch = true
    · simp only [isSpecial, Bool.or_eq_true, beq_iff_eq] at hch
      rcases hch with ((rfl | rfl) | rfl) | rfl
      · exact hreference (lit "lt") (by decide) rfl rfl
      · exact hreference (lit "gt") (by decide) rfl rfl
      · exact hreference (lit "amp") (by decide) rfl rfl
      · exact hreference (lit "quot") (by decide) rfl rfl
    · have hplain := Bool.eq_false_iff.mpr hch
      have hne : ch ≠ 38 := by
        rintro rfl
        exact hch rfl
      rw [escapeChar_eq hplain, List.singleton_append, expandEntities_cons hne, ih]

end Afl.Io.Xml
