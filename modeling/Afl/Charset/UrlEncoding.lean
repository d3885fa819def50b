import Afl.Base.Bytes

/-!
# URL encoding and quoted-printable

`encode` and `decode` of `afl/charset/urlencoding.cpp` and `afl/charset/quotedprintable.cpp`, which write a byte as two
hex digits behind a mark.
-/

namespace Afl.Charset

def getHexDigitValue (c : UInt8) : Int :=
  if c ≥ 48 ∧ c ≤ 57 then c.toNat - 48
  else if c ≥ 65 ∧ c ≤ 70 then c.toNat - 65 + 10
  else if c ≥ 97 ∧ c ≤ 102 then c.toNat - 97 + 10
  else -1

theorem getHexDigitValue_le (c : UInt8) : getHexDigitValue c ≤ 15 := by
  simp only [getHexDigitValue, ge_iff_le, UInt8.le_iff_toNat_le, UInt8.reduceToNat]
  split_ifs <;> omega

theorem toNat_shiftRight_four (u : UInt8) : (u >>> 4).toNat = u.toNat / 16 := by
  rw [UInt8.toNat_shiftRight, Nat.shiftRight_eq_div_pow]
  rfl

theorem toNat_and_fifteen (u : UInt8) : (u &&& 15).toNat = u.toNat % 16 := by
  rw [UInt8.toNat_and]
  exact Nat.and_two_pow_sub_one_eq_mod u.toNat 4

theorem ofNat_halves (u : UInt8) :
    UInt8.ofNat ((16 : Int) * (u >>> 4).toNat + (u &&& 15).toNat).toNat = u := by
  have hvalue : ((16 : Int) * (u >>> 4).toNat + (u &&& 15).toNat).toNat = u.toNat := by
    rw [toNat_shiftRight_four, toNat_and_fifteen]
    omega
  rw [hvalue, UInt8.ofNat_toNat]

namespace UrlEncoding

def hexDigitUpper (n : UInt8) : UInt8 := (lit "0123456789ABCDEF").getD n.toNat 0

theorem getHexDigitValue_hexDigitUpper {n : UInt8} (h : n.toNat < 16) :
    getHexDigitValue (hexDigitUpper n) = n.toNat := by
  have hall : ∀ i < 16, getHexDigitValue ((lit "0123456789ABCDEF").getD i 0) = i := by decide
  exact hall n.toNat h

theorem getHexDigitValue_high (u : UInt8) : getHexDigitValue (hexDigitUpper (u >>> 4)) = (u >>> 4).toNat := by
  have hlt := u.toNat_lt
  exact getHexDigitValue_hexDigitUpper (by rw [toNat_shiftRight_four]; omega)

theorem getHexDigitValue_low (u : UInt8) : getHexDigitValue (hexDigitUpper (u &&& 15)) = (u &&& 15).toNat :=
  getHexDigitValue_hexDigitUpper (by rw [toNat_and_fifteen]; omega)

/-- What `encode` appends for one byte. -/
def encodeByte (u : UInt8) : Bytes :=
  if u ≥ 128 ∨ u < 32 ∨ u = 37 ∨ u = 38 ∨ u = 43 ∨ u = 61 then
    [37, hexDigitUpper (u >>> 4), hexDigitUpper (u &&& 15)]
  else if u = 32 then [43]
  else [u]

def encode (s : Bytes) : Bytes := s.flatMap encodeByte

/-- What `decode` appends for a `%` and the two bytes after it. -/
def decodeQuoted (p q : UInt8) : Bytes :=
  if getHexDigitValue p ≥ 0 ∧ getHexDigitValue q ≥ 0 then
    [UInt8.ofNat (16 * getHexDigitValue p + getHexDigitValue q).toNat]
  else [37, p, q]

def decode : Bytes → Bytes
  | [] => []
  | c :: p :: q :: rest =>
    if c = 37 then decodeQuoted p q ++ decode rest
    else (if c = 43 then 32 else c) :: decode (p :: q :: rest)
  | c :: rest => (if c = 43 then 32 else c) :: decode rest

theorem decode_ne_nil {s : Bytes} (h : s ≠ []) : decode s ≠ [] := by
  match s with
  | [] => exact absurd rfl h
  | [_] => simp [decode]
  | [_, _] => simp [decode]
  | c :: p :: q :: rest =>
    rw [decode]
    split
    · rw [decodeQuoted]
      split <;> simp
    · simp

theorem decode_of_plain {s : Bytes} (h : ∀ c ∈ s, c ≠ 37 ∧ c ≠ 43) : decode s = s := by
  induction s with
  | nil => rfl
  | cons c s ih =>
    have hs := ih fun b hb => h b (List.mem_cons_of_mem c hb)
    obtain ⟨hc, hc'⟩ := h c List.mem_cons_self
    match s, hs with
    | [], _ => simp [decode, hc']
    | [_], hs => rw [decode, hs, if_neg hc']; simp
    | p :: q :: rest, hs => rw [decode, if_neg hc, if_neg hc', hs]

theorem decodeQuoted_hexDigitUpper (u : UInt8) :
    decodeQuoted (hexDigitUpper (u >>> 4)) (hexDigitUpper (u &&& 15)) = [u] := by
  rw [decodeQuoted, getHexDigitValue_high, getHexDigitValue_low, if_pos ⟨Int.natCast_nonneg _, Int.natCast_nonneg _⟩,
    ofNat_halves]

theorem decode_cons {c : UInt8} (hc : c ≠ 37) (rest : Bytes) :
    decode (c :: rest) = (if c = 43 then 32 else c) :: decode rest := by
  match rest with
  | [] => rfl
  | [_] => rfl
  | p :: q :: rest => rw [decode, if_neg hc]

/-- **What was encoded is decoded.** -/
theorem decode_of_encode (s : Bytes) : decode (encode s) = s := by
  induction s with
  | nil => rfl
  | cons u s ih =>
    rw [encode, List.flatMap_cons, ← encode, encodeByte]
    split_ifs with hquoted hspace
    · have hquote : ∀ p q : UInt8, decode ([37, p, q] ++ encode s) = decodeQuoted p q ++ decode (encode s) := by
        intro p q
        rw [List.cons_append, List.cons_append, List.cons_append, List.nil_append, decode, if_pos rfl]
      rw [hquote, decodeQuoted_hexDigitUpper, ih, List.singleton_append]
    · rw [List.singleton_append, decode_cons (by decide), if_pos rfl, ih, hspace]
    · simp only [not_or] at hquoted
      rw [List.singleton_append, decode_cons hquoted.2.2.1, if_neg hquoted.2.2.2.2.1, ih]

example : decode (encode (lit "a b%2f+c")) = lit "a b%2f+c" := by decide

end UrlEncoding

namespace QuotedPrintable

open UrlEncoding (hexDigitUpper)

/-- What `encode` appends for one byte. -/
def encodeByte (u : UInt8) : Bytes :=
  if u ≥ 0x80 ∨ u < 0x20 ∨ u = 61 then [61, hexDigitUpper (u >>> 4), hexDigitUpper (u &&& 15)] else [u]

def encode (s : Bytes) : Bytes := s.flatMap encodeByte

/-- What `decode` appends for an equal sign and the two bytes after it. -/
def decodeQuoted (p q : UInt8) : Bytes :=
  if getHexDigitValue p ≥ 0 ∧ getHexDigitValue q ≥ 0 then
    [UInt8.ofNat (16 * getHexDigitValue p + getHexDigitValue q).toNat]
  else [61, p, q]

def decode : Bytes → Bytes
  | [] => []
  | c :: p :: q :: rest => if c = 61 then decodeQuoted p q ++ decode rest else c :: decode (p :: q :: rest)
  | c :: rest => c :: decode rest

theorem decodeQuoted_hexDigitUpper (u : UInt8) :
    decodeQuoted (hexDigitUpper (u >>> 4)) (hexDigitUpper (u &&& 15)) = [u] := by
  rw [decodeQuoted, UrlEncoding.getHexDigitValue_high, UrlEncoding.getHexDigitValue_low,
    if_pos ⟨Int.natCast_nonneg _, Int.natCast_nonneg _⟩, ofNat_halves]

theorem decode_plain {c : UInt8} (hc : c ≠ 61) (rest : Bytes) : decode (c :: rest) = c :: decode rest := by
  match rest with
  | [] => rfl
  | [_] => rfl
  | p :: q :: rest => rw [decode, if_neg hc]

/-- **What was encoded is decoded.** -/
theorem decode_of_encode (s : Bytes) : decode (encode s) = s := by
  induction s with
  | nil => rfl
  | cons u s ih =>
    rw [encode, List.flatMap_cons, encodeByte]
    split_ifs with hquoted
    · have hquote : decode ([61, hexDigitUpper (u >>> 4), hexDigitUpper (u &&& 15)] ++ s.flatMap encodeByte) =
          decodeQuoted (hexDigitUpper (u >>> 4)) (hexDigitUpper (u &&& 15)) ++ decode (encode s) := by
        rw [List.cons_append, List.cons_append, List.cons_append, decode, if_pos rfl]
        rfl
      rw [hquote, decodeQuoted_hexDigitUpper, ih]
      rfl
    · have hplain : u ≠ 61 := fun h => hquoted (.inr (.inr h))
      have hdecode : decode ([u] ++ s.flatMap encodeByte) = u :: decode (encode s) := decode_plain hplain _
      rw [hdecode, ih]

end QuotedPrintable

end Afl.Charset
