import Afl.Net.Header

/-!
# Case-insensitive comparison

`strCaseCompare` of `afl/string/string.cpp`: the version that is compiled, and the `#if 0` version it stands for.
Whether `char` is signed is up to the implementation of C++, and is a parameter here.
-/

namespace Afl.CaseCompare

variable {signed : Bool}

def charValue (signed : Bool) (ch : UInt8) : Int :=
  if signed = true ∧ 128 ≤ ch then ch.toNat - 256 else ch.toNat

/-- The `#if 0` version. -/
def reference (signed : Bool) : Bytes → Bytes → Int
  | [], [] => 0
  | [], _ :: _ => -1
  | _ :: _, [] => 1
  | pa :: a, pb :: b =>
    let diff := charValue signed (charToUpper pa) - charValue signed (charToUpper pb)
    if diff ≠ 0 then diff else reference signed a b

/-- The loop of the compiled version, from index `i` on for `n` characters. It folds only characters that differ. -/
def strCaseCompareLoop (signed : Bool) (a b : Bytes) (i : Nat) : Nat → Option Int
  | 0 => none
  | n + 1 =>
    let ca := a.getD i 0
    let cb := b.getD i 0
    if ca ≠ cb then
      let diff := charValue signed (charToUpper ca) - charValue signed (charToUpper cb)
      if diff ≠ 0 then some diff else strCaseCompareLoop signed a b (i + 1) n
    else strCaseCompareLoop signed a b (i + 1) n

def strCaseCompare (signed : Bool) (a b : Bytes) : Int :=
  let commonLength := min a.length b.length
  match strCaseCompareLoop signed a b 0 commonLength with
  | some diff => diff
  | none => if a.length < b.length then -1 else if a.length = b.length then 0 else 1

/-! ### The compiled version is the reference -/

theorem strCaseCompareLoop_cons (ca cb : UInt8) (a b : Bytes) (i n : Nat) :
    strCaseCompareLoop signed (ca :: a) (cb :: b) (i + 1) n = strCaseCompareLoop signed a b i n := by
  induction n generalizing i with
  | zero => rfl
  | succ n ih => rw [strCaseCompareLoop, strCaseCompareLoop, List.getD_cons_succ, List.getD_cons_succ, ih]

theorem strCaseCompareLoop_succ (ca cb : UInt8) (a b : Bytes) (n : Nat) :
    strCaseCompareLoop signed (ca :: a) (cb :: b) 0 (n + 1) =
      if charValue signed (charToUpper ca) - charValue signed (charToUpper cb) ≠ 0 then
        some (charValue signed (charToUpper ca) - charValue signed (charToUpper cb))
      else strCaseCompareLoop signed a b 0 n := by
  rw [strCaseCompareLoop, List.getD_cons_zero, List.getD_cons_zero, strCaseCompareLoop_cons]
  by_cases hsame : ca = cb
  · rw [if_neg (not_not.mpr hsame), hsame, Int.sub_self, if_neg (not_not.mpr rfl)]
  · rw [if_pos hsame]

theorem strCaseCompare_cons (ca cb : UInt8) (a b : Bytes) :
    strCaseCompare signed (ca :: a) (cb :: b) =
      if charValue signed (charToUpper ca) - charValue signed (charToUpper cb) ≠ 0 then
        charValue signed (charToUpper ca) - charValue signed (charToUpper cb)
      else strCaseCompare signed a b := by
  have hlength : min (ca :: a).length (cb :: b).length = min a.length b.length + 1 := by
    rw [List.length_cons, List.length_cons]
    omega
  rw [strCaseCompare, hlength, strCaseCompareLoop_succ]
  by_cases hdiffer : charValue signed (charToUpper ca) - charValue signed (charToUpper cb) ≠ 0
  · rw [if_pos hdiffer, if_pos hdiffer]
  · rw [if_neg hdiffer, if_neg hdiffer, strCaseCompare]
    simp only [List.length_cons, Nat.add_lt_add_iff_right, Nat.add_right_cancel_iff]

theorem strCaseCompare_eq_reference (a b : Bytes) : strCaseCompare signed a b = reference signed a b := by
  induction a generalizing b with
  | nil => cases b <;> rfl
  | cons ca a ih =>
    cases b with
    | nil => rfl
    | cons cb b => rw [strCaseCompare_cons, reference, ih]

/-! ### The order of the folded texts -/

theorem charValue_injective : Function.Injective (charValue signed) := by
  intro a b h
  have ha := a.toNat_lt
  have hb := b.toNat_lt
  have hle : ∀ c : UInt8, 128 ≤ c ↔ 128 ≤ c.toNat := fun c => UInt8.le_iff_toNat_le
  apply UInt8.toNat_inj.mp
  rw [charValue, charValue] at h
  simp only [hle] at h
  split_ifs at h <;> omega

theorem charValue_signed (ch : UInt8) : charValue true ch = Net.charValue ch := by
  have hlt : ch < 128 ↔ ¬128 ≤ ch := UInt8.not_le.symm
  rw [charValue, Net.charValue]
  by_cases h : 128 ≤ ch
  · rw [if_pos ⟨rfl, h⟩, if_neg fun hless => hlt.mp hless h]
  · rw [if_neg fun hand => h hand.2, if_pos (hlt.mpr h)]

/-- What the comparison orders by: the values of the upper-case characters. -/
def key (signed : Bool) (s : Bytes) : List Int := (strUCase s).map (charValue signed)

theorem key_cons (ch : UInt8) (s : Bytes) : key signed (ch :: s) = charValue signed (charToUpper ch) :: key signed s :=
  rfl

theorem key_eq_iff {a b : Bytes} : key signed a = key signed b ↔ strUCase a = strUCase b :=
  (List.map_injective_iff.mpr charValue_injective).eq_iff

theorem reference_neg_iff (a b : Bytes) : reference signed a b < 0 ↔ key signed a < key signed b := by
  induction a generalizing b with
  | nil =>
    cases b with
    | nil => exact iff_of_false (lt_irrefl _) (lt_irrefl _)
    | cons cb b => exact iff_of_true (show (-1 : Int) < 0 by decide) (List.nil_lt_cons _ _)
  | cons ca a ih =>
    cases b with
    | nil => exact iff_of_false (show ¬(1 : Int) < 0 by decide) (List.not_lt_nil _)
    | cons cb b =>
      rw [reference, key_cons, key_cons, List.cons_lt_cons_iff, ← ih]
      split_ifs <;> omega

theorem reference_swap (a b : Bytes) : reference signed b a = -reference signed a b := by
  induction a generalizing b with
  | nil => cases b <;> rfl
  | cons ca a ih =>
    cases b with
    | nil => rfl
    | cons cb b =>
      rw [reference, reference, ih]
      split_ifs <;> omega

theorem reference_nonpos_iff (a b : Bytes) : reference signed a b ≤ 0 ↔ key signed a ≤ key signed b := by
  rw [← not_lt, ← not_lt, ← reference_neg_iff, reference_swap]
  omega

theorem reference_eq_zero_iff (a b : Bytes) : reference signed a b = 0 ↔ strUCase a = strUCase b := by
  have hkey : key signed a = key signed b ↔ strUCase a = strUCase b := key_eq_iff
  rw [← hkey, le_antisymm_iff (a := key signed a), ← reference_nonpos_iff, ← reference_nonpos_iff, reference_swap]
  omega

theorem charToUpper_charToUpper (ch : UInt8) : charToUpper (charToUpper ch) = charToUpper ch := by
  by_cases hlower : charIsLower ch = true
  · have hrange : 97 ≤ ch.toNat ∧ ch.toNat ≤ 122 := by
      rw [charIsLower, Bool.and_eq_true, decide_eq_true_eq, decide_eq_true_eq] at hlower
      exact ⟨UInt8.le_iff_toNat_le.mp hlower.1, UInt8.le_iff_toNat_le.mp hlower.2⟩
    have hvalue : (ch - 0x20).toNat = ch.toNat - 32 :=
      UInt8.toNat_sub_of_le _ _ (UInt8.le_iff_toNat_le.mpr (show 32 ≤ ch.toNat by omega))
    have hupper : ¬charIsLower (ch - 0x20) = true := by
      rw [charIsLower, Bool.and_eq_true, decide_eq_true_eq, decide_eq_true_eq]
      rintro ⟨hle, -⟩
      have hle : 97 ≤ (ch - 0x20).toNat := UInt8.le_iff_toNat_le.mp hle
      omega
    rw [charToUpper, charToUpper, if_pos hlower, if_neg hupper]
  · rw [charToUpper, charToUpper, if_neg hlower, if_neg hlower]

theorem reference_strUCase (a b : Bytes) : reference signed (strUCase a) (strUCase b) = reference signed a b := by
  induction a generalizing b with
  | nil => cases b <;> rfl
  | cons ca a ih =>
    cases b with
    | nil => rfl
    | cons cb b =>
      show reference signed (charToUpper ca :: strUCase a) (charToUpper cb :: strUCase b) = _
      rw [reference, reference, charToUpper_charToUpper, charToUpper_charToUpper, ih]

theorem strCaseCompare_signed (a b : Bytes) : strCaseCompare true a b = Net.strCaseCompare a b := by
  rw [strCaseCompare_eq_reference]
  induction a generalizing b with
  | nil => cases b <;> rfl
  | cons ca a ih =>
    cases b with
    | nil => rfl
    | cons cb b => rw [reference, Net.strCaseCompare, ih, charValue_signed, charValue_signed]

/-- **A consistent order**: the compiled version decides as the reference does on the folded texts. It is zero exactly
for texts that are equal after folding, antisymmetric and transitive. -/
theorem strCaseCompare_order (signed : Bool) (a b : Bytes) :
    (strCaseCompare signed a b).sign = (reference signed (strUCase a) (strUCase b)).sign ∧
      (strCaseCompare signed a b = 0 ↔ strUCase a = strUCase b) ∧
      strCaseCompare signed b a = -strCaseCompare signed a b ∧
      ∀ c, strCaseCompare signed a b ≤ 0 → strCaseCompare signed b c ≤ 0 →
        strCaseCompare signed a c ≤ 0 ∧
          (strCaseCompare signed a b < 0 ∨ strCaseCompare signed b c < 0 → strCaseCompare signed a c < 0) := by
  simp only [strCaseCompare_eq_reference]
  refine ⟨congrArg Int.sign (reference_strUCase a b).symm, reference_eq_zero_iff a b, reference_swap a b, ?_⟩
  intro c hab hbc
  rw [reference_nonpos_iff] at hab hbc
  rw [reference_nonpos_iff, reference_neg_iff, reference_neg_iff, reference_neg_iff]
  exact ⟨hab.trans hbc, fun h => h.elim hbc.trans_lt' hab.trans_lt⟩

theorem strCaseCompare_order_underscore : strCaseCompare true (lit "Ab") (lit "a_") < 0 :=
  ((strCaseCompare_order true (lit "Ab") (lit "aC")).2.2.2 (lit "a_") (by decide) (by decide)).2 (.inl (by decide))

end Afl.CaseCompare
