import Afl.Base.Bytes

/-!
# Base64

`afl/charset/base64.cpp`. The 24 bits of a group are a number.
-/

namespace Afl.Charset.Base64

def base64Alphabet : Bytes := lit "ABCDEFGHIJKLMNOPQRSTUVWXYZabcdefghijklmnopqrstuvwxyz0123456789+/"

/-- The position in the alphabet, and 0 for other characters. -/
def b64Value (c : UInt8) : Nat := (base64Alphabet.findIdx? (· = c)).getD 0

/-- A character of the alphabet, by the low six bits of a number. -/
def b64Char (value : Nat) : UInt8 := base64Alphabet.getD (value % 64) 0

/-- `encode`: triplets, and the remainder. -/
def encode : Bytes → Bytes
  | p0 :: p1 :: p2 :: rest =>
    let value := 65536 * p0.toNat + 256 * p1.toNat + p2.toNat
    b64Char (value / 2 ^ 18) :: b64Char (value / 2 ^ 12) :: b64Char (value / 2 ^ 6) :: b64Char value :: encode rest
  | [p1, p2] =>
    let value := 65536 * p1.toNat + 256 * p2.toNat
    [b64Char (value / 2 ^ 18), b64Char (value / 2 ^ 12), b64Char (value / 2 ^ 6), 61]
  | [p1] =>
    let value := 65536 * p1.toNat
    [b64Char (value / 2 ^ 18), b64Char (value / 2 ^ 12), 61, 61]
  | [] => []

/-- The loop of `decode`: a character of the result for the second, third and fourth one of each group. -/
def decodeGroups : Bytes → Bytes
  | c0 :: c1 :: c2 :: c3 :: rest =>
    let value := b64Value c0 * 2 ^ 18 + b64Value c1 * 2 ^ 12
    let value' := value + b64Value c2 * 2 ^ 6
    UInt8.ofNat (value / 2 ^ 16) :: UInt8.ofNat (value' / 2 ^ 8) :: UInt8.ofNat (value' + b64Value c3) ::
      decodeGroups rest
  | [c0, c1, c2] =>
    let value := b64Value c0 * 2 ^ 18 + b64Value c1 * 2 ^ 12
    [UInt8.ofNat (value / 2 ^ 16), UInt8.ofNat ((value + b64Value c2 * 2 ^ 6) / 2 ^ 8)]
  | [c0, c1] => [UInt8.ofNat ((b64Value c0 * 2 ^ 18 + b64Value c1 * 2 ^ 12) / 2 ^ 16)]
  | _ => []

/-- `decode`: trailing equal signs are removed first. -/
def decode (bytes : Bytes) : Bytes := decodeGroups (bytes.reverse.dropWhile (· = 61)).reverse

/-! ### Round trip -/

theorem b64Value_alphabet : ∀ n < 64, b64Value (base64Alphabet.getD n 0) = n := by decide +kernel

theorem b64Value_b64Char (value : Nat) : b64Value (b64Char value) = value % 64 :=
  b64Value_alphabet _ (Nat.mod_lt _ (by decide))

theorem b64Char_ne (value : Nat) : b64Char value ≠ 61 := by
  have hall : ∀ n < 64, base64Alphabet.getD n 0 ≠ 61 := by decide +kernel
  exact hall _ (Nat.mod_lt _ (by decide))

theorem ofNat_eq {n : Nat} {c : UInt8} (h : n % 256 = c.toNat) : UInt8.ofNat n = c := by
  rw [← UInt8.toNat_inj, UInt8.toNat_ofNat']
  exact h

theorem encode_groups (bytes : Bytes) :
    ∃ chars n, encode bytes = chars ++ List.replicate n 61 ∧ (∀ c ∈ chars, c ≠ 61) ∧ decodeGroups chars = bytes := by
  fun_induction encode bytes with
  | case1 p0 p1 p2 rest value ih =>
    obtain ⟨chars, n, hencode, hchars, hdecode⟩ := ih
    refine ⟨b64Char (value / 2 ^ 18) :: b64Char (value / 2 ^ 12) :: b64Char (value / 2 ^ 6) :: b64Char value :: chars, n,
      by rw [hencode]; rfl, ?_, ?_⟩
    · simp only [List.forall_mem_cons]
      exact ⟨b64Char_ne _, b64Char_ne _, b64Char_ne _, b64Char_ne _, hchars⟩
    · have h0 := p0.toNat_lt
      have h1 := p1.toNat_lt
      have h2 := p2.toNat_lt
      rw [decodeGroups, hdecode]
      simp only [b64Value_b64Char]
      rw [ofNat_eq (c := p0) (by omega), ofNat_eq (c := p1) (by omega), ofNat_eq (c := p2) (by omega)]
  | case2 p1 p2 value =>
    refine ⟨[b64Char (value / 2 ^ 18), b64Char (value / 2 ^ 12), b64Char (value / 2 ^ 6)], 1, rfl, ?_, ?_⟩
    · simp only [List.forall_mem_cons]
      exact ⟨b64Char_ne _, b64Char_ne _, b64Char_ne _, fun _ h => absurd h List.not_mem_nil⟩
    · have h1 := p1.toNat_lt
      have h2 := p2.toNat_lt
      rw [decodeGroups]
      simp only [b64Value_b64Char]
      rw [ofNat_eq (c := p1) (by omega), ofNat_eq (c := p2) (by omega)]
  | case3 p1 value =>
    refine ⟨[b64Char (value / 2 ^ 18), b64Char (value / 2 ^ 12)], 2, rfl, ?_, ?_⟩
    · simp only [List.forall_mem_cons]
      exact ⟨b64Char_ne _, b64Char_ne _, fun _ h => absurd h List.not_mem_nil⟩
    · have h1 := p1.toNat_lt
      rw [decodeGroups]
      simp only [b64Value_b64Char]
      rw [ofNat_eq (c := p1) (by omega)]
  | case4 => exact ⟨[], 0, rfl, fun _ h => absurd h List.not_mem_nil, rfl⟩

/-- **What was encoded is decoded.** -/
theorem decode_of_encode (bytes : Bytes) : decode (encode bytes) = bytes := by
  obtain ⟨chars, n, hencode, hchars, hdecode⟩ := encode_groups bytes
  have hpad : ∀ c ∈ List.replicate n (61 : UInt8), decide (c = 61) = true := fun c hc =>
    decide_eq_true (List.eq_of_mem_replicate hc)
  have hkept : chars.reverse.dropWhile (· = 61) = chars.reverse := by
    cases hreverse : chars.reverse with
    | nil => rfl
    | cons c rest =>
      have hc : c ∈ chars := List.mem_reverse.1 (hreverse ▸ List.mem_cons_self)
      have hneg : ¬decide (c = 61) = true := fun h => hchars c hc (of_decide_eq_true h)
      rw [List.dropWhile_cons_of_neg (p := fun b : UInt8 => decide (b = 61)) hneg]
  rw [decode, hencode, List.reverse_append, List.reverse_replicate, List.dropWhile_append_of_pos hpad, hkept,
    List.reverse_reverse, hdecode]

end Afl.Charset.Base64
