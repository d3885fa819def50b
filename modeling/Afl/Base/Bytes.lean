import Mathlib.Data.Nat.Digits.Defs
import Mathlib.Data.List.Lex

/-!
# Byte strings

`String_t` and `ConstBytes_t` are both lists of bytes here. A descriptor that a function consumes from
(`eat`, `split`, `splitUpdate`) is passed in and its unconsumed rest is returned.
-/

namespace Afl

/-- `String_t`, and the content of a `ConstBytes_t`. -/
abbrev Bytes := List UInt8

/-- The bytes of an ASCII literal of the source. -/
def lit (s : String) : Bytes := s.toList.map fun c => UInt8.ofNat c.toNat

/-- `operator<=` of `String_t`: bytes compare as unsigned characters. -/
def strLe (a b : Bytes) : Prop := a.map UInt8.toNat ≤ b.map UInt8.toNat

/-- `operator<` of `String_t`. -/
def strLt (a b : Bytes) : Prop := a.map UInt8.toNat < b.map UInt8.toNat

instance : DecidableRel strLe := fun a b => inferInstanceAs (Decidable (a.map UInt8.toNat ≤ b.map UInt8.toNat))

instance : DecidableRel strLt := fun a b => inferInstanceAs (Decidable (a.map UInt8.toNat < b.map UInt8.toNat))

theorem map_toNat_injective : Function.Injective (List.map UInt8.toNat) :=
  List.map_injective_iff.mpr fun _ _ h => UInt8.toNat_inj.mp h

instance : Std.Antisymm strLe := ⟨fun _ _ hab hba => map_toNat_injective (le_antisymm hab hba)⟩

instance : IsTrans Bytes strLe := ⟨fun _ _ _ hab hbc => le_trans hab hbc⟩

instance : Std.Total strLe := ⟨fun _ _ => le_total _ _⟩

/-- `Format("%d", n)` of a non-negative number. -/
def decimalNat (n : Nat) : Bytes :=
  if n = 0 then lit "0" else (Nat.digits 10 n).reverse.map fun d => UInt8.ofNat (48 + d)

/-- `Format("%d", i)`. -/
def decimal (i : Int) : Bytes :=
  if i < 0 then lit "-" ++ decimalNat i.natAbs else decimalNat i.natAbs

/-! ### Written numbers -/

theorem decimalNat_of_lt {n : Nat} (h : n < 10) : decimalNat n = [UInt8.ofNat (48 + n)] := by
  rcases Nat.eq_zero_or_pos n with rfl | hpos
  · rfl
  · rw [decimalNat, if_neg hpos.ne', Nat.digits_of_lt 10 n hpos.ne' h]
    rfl

theorem decimalNat_of_le {n : Nat} (h : 10 ≤ n) :
    decimalNat n = decimalNat (n / 10) ++ [UInt8.ofNat (48 + n % 10)] := by
  have hpos : 0 < n := by omega
  have hdiv : n / 10 ≠ 0 := by omega
  rw [decimalNat, if_neg hpos.ne', decimalNat, if_neg hdiv, Nat.digits_def' (by decide) hpos]
  simp

theorem decimalNat_induction {P : Nat → Bytes → Prop} (hdigit : ∀ n < 10, P n [UInt8.ofNat (48 + n)])
    (hmore : ∀ n, 10 ≤ n → P (n / 10) (decimalNat (n / 10)) →
      P n (decimalNat (n / 10) ++ [UInt8.ofNat (48 + n % 10)]))
    (n : Nat) : P n (decimalNat n) := by
  induction n using Nat.strong_induction_on with
  | _ n ih =>
    by_cases h : n < 10
    · rw [decimalNat_of_lt h]
      exact hdigit n h
    · have hle : 10 ≤ n := by omega
      rw [decimalNat_of_le hle]
      exact hmore n hle (ih (n / 10) (by omega))

end Afl
