import Mathlib.Algebra.Field.ZMod
import Mathlib.Algebra.Polynomial.Div
import Mathlib.RingTheory.Coprime.Lemmas
import Mathlib.Tactic.LinearCombination

/-!
# Division by a polynomial over the field with two elements

A register holds the remainder, its lowest bit the coefficient of the highest power, and the divisor lacks its leading
term. A shift of the register is linear in exclusive or, so what several shifts make of the low bits can be looked up.
-/

namespace ShiftXor

variable {w : Nat} (poly : BitVec w)

def shift (r : BitVec w) : BitVec w := if r.getLsbD 0 then poly ^^^ (r >>> 1) else r >>> 1

/-- The next bit of the dividend meets the bit that is shifted out. -/
def feedBit (r : BitVec w) (b : Bool) : BitVec w :=
  if (r.getLsbD 0 ^^ b) then poly ^^^ (r >>> 1) else r >>> 1

def divide (r : BitVec w) (bits : List Bool) : BitVec w := bits.foldl (feedBit poly) r

/-- The lowest `k` bits, the lowest one first. -/
def lowBits : Nat → BitVec w → List Bool
  | 0, _ => []
  | k + 1, x => x.getLsbD 0 :: lowBits k (x >>> 1)

theorem lowBits_setWidth {v : Nat} (hv : v ≤ w) (k : Nat) (x : BitVec v) : lowBits k (x.setWidth w) = lowBits k x := by
  induction k generalizing x with
  | zero => rfl
  | succ k ih =>
    have hbit : (x.setWidth w).getLsbD 0 = x.getLsbD 0 := by
      rw [BitVec.getLsbD_setWidth]
      by_cases hw : 0 < w
      · rw [decide_eq_true hw, Bool.true_and]
      · rw [BitVec.getLsbD_of_ge x 0 (by omega), Bool.and_false]
    rw [lowBits, lowBits, hbit, ← BitVec.setWidth_ushiftRight hv, ih]

theorem xor_xor_xor_comm (p x y : BitVec w) : p ^^^ x ^^^ (p ^^^ y) = x ^^^ y := by
  rw [BitVec.xor_comm p x, BitVec.xor_assoc, ← BitVec.xor_assoc p, BitVec.xor_self, BitVec.zero_xor]

theorem shift_xor (x y : BitVec w) : shift poly (x ^^^ y) = shift poly x ^^^ shift poly y := by
  rw [shift, shift, shift, BitVec.getLsbD_xor, BitVec.ushiftRight_xor_distrib]
  cases x.getLsbD 0 <;> cases y.getLsbD 0
  · rfl
  · show poly ^^^ (x >>> 1 ^^^ y >>> 1) = x >>> 1 ^^^ (poly ^^^ y >>> 1)
    ac_rfl
  · exact (BitVec.xor_assoc poly _ _).symm
  · exact (xor_xor_xor_comm poly _ _).symm

theorem iterate_shift_xor (k : Nat) (x y : BitVec w) :
    (shift poly)^[k] (x ^^^ y) = (shift poly)^[k] x ^^^ (shift poly)^[k] y := by
  induction k generalizing x y with
  | zero => rfl
  | succ k ih => rw [Function.iterate_succ_apply, shift_xor, ih]; rfl

theorem iterate_shift_of_low (k : Nat) {x : BitVec w} (hx : ∀ i < k, x.getLsbD i = false) :
    (shift poly)^[k] x = x >>> k := by
  induction k with
  | zero => rw [BitVec.ushiftRight_zero]; rfl
  | succ k ih =>
    have hlow : (x >>> k).getLsbD 0 = false := by
      rw [BitVec.getLsbD_ushiftRight]
      exact hx k (Nat.lt_succ_self k)
    rw [Function.iterate_succ_apply', ih fun i hi => hx i (Nat.lt_succ_of_lt hi), shift, hlow,
      if_neg Bool.false_ne_true, BitVec.shiftRight_add]

/-- The word with the lowest `k` bits set. -/
def mask (w k : Nat) : BitVec w := BitVec.ofNat w (2 ^ k - 1)

theorem getLsbD_mask (k i : Nat) : (mask w k).getLsbD i = decide (i < w ∧ i < k) := by
  rw [mask, BitVec.getLsbD_ofNat, Nat.testBit_two_pow_sub_one, Bool.decide_and]

theorem and_mask_xor (k : Nat) (x : BitVec w) : x &&& mask w k ^^^ (x &&& ~~~mask w k) = x := by
  apply BitVec.eq_of_getLsbD_eq
  intro i hi
  rw [BitVec.getLsbD_xor, BitVec.getLsbD_and, BitVec.getLsbD_and, BitVec.getLsbD_not, decide_eq_true hi]
  cases x.getLsbD i <;> cases (mask w k).getLsbD i <;> rfl

theorem and_not_mask_shift (k : Nat) (x : BitVec w) : (x &&& ~~~mask w k) >>> k = x >>> k := by
  apply BitVec.eq_of_getLsbD_eq
  intro i _
  rw [BitVec.getLsbD_ushiftRight, BitVec.getLsbD_ushiftRight, BitVec.getLsbD_and, BitVec.getLsbD_not, getLsbD_mask]
  by_cases hi : k + i < w
  · simp [hi]
  · rw [BitVec.getLsbD_of_ge x _ (Nat.le_of_not_lt hi), Bool.false_and]

/-- **Table lookup.** What `k` shifts make of a register is what they make of its lowest `k` bits, and the rest of it
moved down. -/
theorem iterate_shift_eq (k : Nat) (x : BitVec w) :
    (shift poly)^[k] x = (shift poly)^[k] (x &&& mask w k) ^^^ (x >>> k) := by
  have hlow : ∀ i < k, (x &&& ~~~mask w k).getLsbD i = false := by
    intro i hi
    by_cases hiw : i < w
    · simp [BitVec.getLsbD_not, getLsbD_mask, hi]
    · exact BitVec.getLsbD_of_ge _ _ (Nat.le_of_not_lt hiw)
  calc (shift poly)^[k] x
      = (shift poly)^[k] (x &&& mask w k ^^^ (x &&& ~~~mask w k)) := by rw [and_mask_xor]
    _ = (shift poly)^[k] (x &&& mask w k) ^^^ ((x &&& ~~~mask w k) >>> k) := by
      rw [iterate_shift_xor, iterate_shift_of_low poly k hlow]
    _ = (shift poly)^[k] (x &&& mask w k) ^^^ (x >>> k) := by rw [and_not_mask_shift]

theorem shift_xor_eq_feedBit (r x : BitVec w) : shift poly (r ^^^ x) = feedBit poly r (x.getLsbD 0) ^^^ (x >>> 1) := by
  rw [shift, feedBit, BitVec.getLsbD_xor, BitVec.ushiftRight_xor_distrib]
  cases (r.getLsbD 0 ^^ x.getLsbD 0)
  · rfl
  · exact (BitVec.xor_assoc poly _ _).symm

/-- **Bits in parallel.** Feeding `k` bits is an exclusive or with all of them, and `k` shifts. -/
theorem divide_lowBits (k : Nat) (r : BitVec w) {x : BitVec w} (hx : x >>> k = 0#w) :
    divide poly r (lowBits k x) = (shift poly)^[k] (r ^^^ x) := by
  induction k generalizing r x with
  | zero =>
    rw [BitVec.ushiftRight_zero] at hx
    rw [hx, BitVec.xor_zero]
    rfl
  | succ k ih =>
    have hnext : x >>> 1 >>> k = 0#w := by rw [← BitVec.shiftRight_add, Nat.add_comm, hx]
    calc divide poly r (lowBits (k + 1) x)
        = divide poly (feedBit poly r (x.getLsbD 0)) (lowBits k (x >>> 1)) := rfl
      _ = (shift poly)^[k] (feedBit poly r (x.getLsbD 0) ^^^ (x >>> 1)) := ih _ hnext
      _ = (shift poly)^[k + 1] (r ^^^ x) := by rw [← shift_xor_eq_feedBit]; rfl

theorem divide_append (r : BitVec w) (a b : List Bool) : divide poly r (a ++ b) = divide poly (divide poly r a) b :=
  List.foldl_append

/-! ### What the register means -/

section Polynomials

open Polynomial

noncomputable def bit (b : Bool) : (ZMod 2)[X] := if b then 1 else 0

noncomputable def toPoly (r : BitVec w) : (ZMod 2)[X] := ∑ i ∈ Finset.range w, bit (r.getLsbD i) * X ^ (w - 1 - i)

noncomputable def divisor : (ZMod 2)[X] := X ^ w + toPoly poly

/-- The first bit is the coefficient of the highest power. -/
noncomputable def message : List Bool → (ZMod 2)[X]
  | [] => 0
  | b :: bits => bit b * X ^ bits.length + message bits

@[simp] theorem bit_false : bit false = 0 := rfl

@[simp] theorem bit_true : bit true = 1 := rfl

theorem bit_xor (a b : Bool) : bit (a ^^ b) = bit a + bit b := by
  cases a <;> cases b
  · exact (add_zero 0).symm
  · exact (zero_add 1).symm
  · exact (add_zero 1).symm
  · exact (CharTwo.add_self_eq_zero 1).symm

theorem toPoly_xor (x y : BitVec w) : toPoly (x ^^^ y) = toPoly x + toPoly y := by
  rw [toPoly, toPoly, toPoly, ← Finset.sum_add_distrib]
  refine Finset.sum_congr rfl fun i _ => ?_
  rw [BitVec.getLsbD_xor, bit_xor, add_mul]

theorem degree_toPoly_lt (r : BitVec w) : (toPoly r).degree < w := by
  refine (degree_sum_le _ _).trans_lt ((Finset.sup_lt_iff (WithBot.bot_lt_coe w)).mpr fun i hi => ?_)
  have hpow : ((X : (ZMod 2)[X]) ^ (w - 1 - i)).degree < w := by
    rw [degree_X_pow, Nat.cast_lt]
    have := Finset.mem_range.mp hi
    omega
  cases r.getLsbD i
  · rw [bit_false, zero_mul, degree_zero]
    exact WithBot.bot_lt_coe w
  · rwa [bit_true, one_mul]

theorem degree_divisor : (divisor poly).degree = w := by
  rw [divisor, degree_add_eq_left_of_degree_lt, degree_X_pow]
  rw [degree_X_pow]
  exact degree_toPoly_lt poly

theorem toPoly_ushiftRight (r : BitVec w) : toPoly (r >>> 1) = X * toPoly r + bit (r.getLsbD 0) * X ^ w := by
  cases w with
  | zero =>
    rw [BitVec.getLsbD_of_ge r 0 (Nat.le_refl 0), bit_false, zero_mul, add_zero]
    exact (mul_zero X).symm
  | succ n =>
    have htop : r.getLsbD (1 + n) = false := BitVec.getLsbD_of_ge r _ (Nat.add_comm 1 n).ge
    have hmul : X * (bit (r.getLsbD 0) * X ^ (n + 1 - 1 - 0)) = bit (r.getLsbD 0) * X ^ (n + 1) := by
      rw [mul_left_comm, ← pow_succ']
      rfl
    rw [toPoly, toPoly, Finset.sum_range_succ, Finset.sum_range_succ', BitVec.getLsbD_ushiftRight, htop, bit_false,
      zero_mul, add_zero, mul_add, hmul, add_assoc, CharTwo.add_self_eq_zero, add_zero, Finset.mul_sum]
    refine Finset.sum_congr rfl fun i hi => ?_
    have hpow : n + 1 - 1 - i = n + 1 - 1 - (i + 1) + 1 := by
      have := Finset.mem_range.mp hi
      omega
    rw [BitVec.getLsbD_ushiftRight, Nat.add_comm 1 i, mul_left_comm, ← pow_succ', ← hpow]

/-- One step of the division: the divisor is subtracted if its leading term divides what is there. -/
theorem toPoly_feedBit (r : BitVec w) (b : Bool) :
    toPoly (feedBit poly r b) = X * toPoly r + bit b * X ^ w + bit (r.getLsbD 0 ^^ b) * divisor poly := by
  have hbit : bit (r.getLsbD 0) = bit b + bit (r.getLsbD 0 ^^ b) := by
    rw [bit_xor, add_left_comm, CharTwo.add_self_eq_zero, add_zero]
  rw [feedBit]
  cases hb : (r.getLsbD 0 ^^ b)
  · rw [hb, bit_false, add_zero] at hbit
    rw [if_neg Bool.false_ne_true, toPoly_ushiftRight, hbit, bit_false, zero_mul, add_zero]
  · rw [hb, bit_true] at hbit
    rw [if_pos rfl, toPoly_xor, toPoly_ushiftRight, hbit, bit_true, divisor]
    ring

/-- **The register is the remainder** of what it was and the bits behind it. -/
theorem divisor_dvd_divide (r : BitVec w) (bits : List Bool) :
    divisor poly ∣ toPoly (divide poly r bits) - (X ^ bits.length * toPoly r + X ^ w * message bits) := by
  induction bits generalizing r with
  | nil =>
    rw [message, mul_zero, add_zero, List.length_nil, pow_zero, one_mul, divide, List.foldl_nil, sub_self]
    exact dvd_zero _
  | cons b bits ih =>
    have hstep : toPoly (divide poly r (b :: bits)) - (X ^ (bits.length + 1) * toPoly r + X ^ w * message (b :: bits)) =
        toPoly (divide poly (feedBit poly r b) bits) -
            (X ^ bits.length * toPoly (feedBit poly r b) + X ^ w * message bits) +
          X ^ bits.length * bit (r.getLsbD 0 ^^ b) * divisor poly := by
      rw [toPoly_feedBit, message, divide, divide, List.foldl_cons]
      ring
    rw [List.length_cons, hstep]
    exact dvd_add (ih _) (Dvd.intro_left _ rfl)

theorem message_append (a b : List Bool) : message (a ++ b) = X ^ b.length * message a + message b := by
  induction a with
  | nil => rw [List.nil_append, message, mul_zero, zero_add]
  | cons c a ih =>
    rw [List.cons_append, message, message, ih, List.length_append]
    ring

theorem degree_message_lt (bits : List Bool) : (message bits).degree < bits.length := by
  induction bits with
  | nil => exact degree_zero.trans_lt (WithBot.bot_lt_coe 0)
  | cons b bits ih =>
    have hlast : (bits.length : WithBot ℕ) < (b :: bits).length := Nat.cast_lt.mpr (Nat.lt_succ_self _)
    refine (degree_add_le _ _).trans_lt (max_lt ?_ (ih.trans hlast))
    cases b
    · rw [bit_false, zero_mul, degree_zero]
      exact WithBot.bot_lt_coe _
    · rwa [bit_true, one_mul, degree_X_pow]

theorem message_injective {a b : List Bool} (hlength : a.length = b.length) (h : message a = message b) : a = b := by
  induction a generalizing b with
  | nil => exact (List.eq_nil_of_length_eq_zero hlength.symm).symm
  | cons x a ih =>
    obtain ⟨y, b, rfl⟩ := List.exists_cons_of_length_eq_add_one hlength.symm
    have hrest : a.length = b.length := Nat.succ.inj hlength
    rw [message, message, hrest] at h
    by_cases hxy : x = y
    · rw [hxy] at h ⊢
      rw [ih hrest (add_left_cancel h)]
    · have hone : bit x - bit y = 1 := by
        have hxor : (x ^^ y) = true := by
          revert hxy
          cases x <;> cases y <;> decide
        rw [CharTwo.sub_eq_add, ← bit_xor, hxor, bit_true]
      have hpow : X ^ b.length = message b - message a := by linear_combination h - X ^ b.length * hone
      have hdegree := (degree_sub_le (message b) (message a)).trans_lt
        (max_lt (degree_message_lt b) (hrest ▸ degree_message_lt a))
      rw [← hpow, degree_X_pow] at hdegree
      exact absurd hdegree (lt_irrefl _)

theorem isCoprime_divisor {n : Nat} {poly : BitVec (n + 1)} (hpoly : poly.getLsbD n = true) (k : Nat) :
    IsCoprime (divisor poly) (X ^ k) := by
  have hlow : ∀ i ∈ Finset.range n, (bit (poly.getLsbD i) * X ^ (n + 1 - 1 - i)).coeff 0 = 0 := by
    intro i hi
    rw [coeff_mul_X_pow', if_neg]
    have := Finset.mem_range.mp hi
    omega
  have hconstant : (divisor poly).coeff 0 = 1 := by
    rw [divisor, toPoly, Finset.sum_range_succ, hpoly, coeff_add, coeff_add, finsetSum_coeff, Finset.sum_eq_zero hlow,
      coeff_X_pow, if_neg (Nat.succ_ne_zero n).symm, zero_add, zero_add, bit_true, one_mul, Nat.add_sub_cancel,
      Nat.sub_self, pow_zero, coeff_one_zero]
  have hsplit := divX_mul_X_add (divisor poly)
  rw [hconstant, C_1] at hsplit
  exact IsCoprime.pow_right ⟨1, -divX (divisor poly), by linear_combination -hsplit⟩

/-- **Bursts.** Two messages that differ in a part not longer than the register leave different remainders. -/
theorem divide_ne {n : Nat} {poly : BitVec (n + 1)} (hpoly : poly.getLsbD n = true) (r : BitVec (n + 1))
    (first last : List Bool) {x y : List Bool} (hlength : x.length = y.length) (hshort : x.length ≤ n + 1) (hne : x ≠ y) :
    divide poly r (first ++ x ++ last) ≠ divide poly r (first ++ y ++ last) := by
  intro heq
  have hx := divisor_dvd_divide poly r (first ++ x ++ last)
  have hy := divisor_dvd_divide poly r (first ++ y ++ last)
  rw [heq] at hx
  have hdvd := dvd_sub hy hx
  have hdiff : divisor poly ∣ message x - message y := by
    apply (isCoprime_divisor hpoly (n + 1 + last.length)).dvd_of_dvd_mul_left
    convert hdvd using 1
    simp only [message_append, List.length_append, hlength]
    ring
  have hsmall : (message x - message y).degree < (divisor poly).degree := by
    rw [degree_divisor]
    refine ((degree_sub_le _ _).trans_lt (max_lt (degree_message_lt x) (hlength ▸ degree_message_lt y))).trans_le ?_
    exact Nat.cast_le.mpr hshort
  exact hne (message_injective hlength (sub_eq_zero.mp (eq_zero_of_dvd_of_degree_lt hdiff hsmall)))

end Polynomials

end ShiftXor
