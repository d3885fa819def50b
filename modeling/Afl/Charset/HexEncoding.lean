import Afl.Charset.Base64
import Afl.Charset.UrlEncoding

/-!
# Hex encoding

`afl/charset/hexencoding.cpp`. The digits to write are given to the constructor, and the decoder reads digits of both
cases whatever they are.
-/

namespace Afl.Charset

/-- `m_digits`. -/
structure HexEncoding where
  digits : Fin 16 → UInt8

namespace HexEncoding

def HEX_DIGITS_UPPER (n : Fin 16) : UInt8 := (lit "0123456789ABCDEF").getD n 0

def new : HexEncoding := ⟨HEX_DIGITS_UPPER⟩

variable (e : HexEncoding)

/-- What `encode` appends for one byte. -/
def encodeByte (i : UInt8) : Bytes :=
  [e.digits (Fin.ofNat 16 (i >>> 4).toNat), e.digits (Fin.ofNat 16 (i &&& 15).toNat)]

def encode (s : Bytes) : Bytes := s.flatMap e.encodeByte

/-- `decode`. What follows a digit is eaten in any case, and what is not a digit is eaten alone. -/
def decode : Bytes → Bytes
  | [] => []
  | [_] => []
  | p :: q :: rest =>
    if getHexDigitValue p ≥ 0 then
      if getHexDigitValue q ≥ 0 then
        UInt8.ofNat (16 * getHexDigitValue p + getHexDigitValue q).toNat :: decode rest
      else decode rest
    else decode (q :: rest)

/-! ### Round trip -/

variable {e}

/-- The digits are those of hexadecimal numbers. -/
def Hexadecimal (e : HexEncoding) : Prop := ∀ n, getHexDigitValue (e.digits n) = n

instance : Decidable (Hexadecimal e) := inferInstanceAs (Decidable (∀ n, getHexDigitValue (e.digits n) = n))

theorem hexadecimal_new : Hexadecimal new := by decide

theorem Hexadecimal.value (h : Hexadecimal e) {n : UInt8} (hn : n.toNat < 16) :
    getHexDigitValue (e.digits (Fin.ofNat 16 n.toNat)) = n.toNat := by
  rw [h, Fin.val_ofNat, Nat.mod_eq_of_lt hn]

theorem Hexadecimal.decode_cons (h : Hexadecimal e) (u : UInt8) (rest : Bytes) :
    decode (e.encodeByte u ++ rest) = u :: decode rest := by
  have hlt := u.toNat_lt
  have hhigh : (u >>> 4).toNat < 16 := by
    rw [toNat_shiftRight_four]
    omega
  have hlow : (u &&& 15).toNat < 16 := by
    rw [toNat_and_fifteen]
    omega
  rw [encodeByte, List.cons_append, List.cons_append, List.nil_append, decode, h.value hhigh, h.value hlow,
    if_pos (Int.natCast_nonneg _), if_pos (Int.natCast_nonneg _), ofNat_halves]

theorem Hexadecimal.decode_of_encode (h : Hexadecimal e) (s : Bytes) : decode (e.encode s) = s := by
  induction s with
  | nil => rfl
  | cons u s ih => rw [encode, List.flatMap_cons, ← encode, h.decode_cons, ih]

theorem hexadecimal_of_decode (h : ∀ s, decode (e.encode s) = s) : Hexadecimal e := by
  intro n
  have hn := n.isLt
  let u : UInt8 := UInt8.ofNat (17 * n)
  have hu : u.toNat = 17 * n := by
    rw [UInt8.toNat_ofNat']
    omega
  have hdigits : e.encode [u] = [e.digits n, e.digits n] := by
    have hhigh : Fin.ofNat 16 (u >>> 4).toNat = n := by
      have hdiv : u.toNat / 16 = n := by omega
      apply Fin.ext
      rw [Fin.val_ofNat, toNat_shiftRight_four, hdiv, Nat.mod_eq_of_lt hn]
    have hlow : Fin.ofNat 16 (u &&& 15).toNat = n := by
      apply Fin.ext
      rw [Fin.val_ofNat, toNat_and_fifteen]
      omega
    rw [encode, List.flatMap_singleton, encodeByte, hhigh, hlow]
  have hback := h [u]
  rw [hdigits, decode] at hback
  split_ifs at hback with hdigit
  · have hle := getHexDigitValue_le (e.digits n)
    have hvalue := congrArg UInt8.toNat (List.cons.inj hback).1
    rw [UInt8.toNat_ofNat', hu] at hvalue
    omega
  · cases hback

end HexEncoding

/-! ### The byte codecs -/

/-- **The byte codecs are lossless.** Hex encoding is for exactly the sets of digits that are read as they are written,
the default ones among them. -/
theorem byteCodecs_decode_encode :
    (∀ s : Bytes, Base64.decode (Base64.encode s) = s ∧ QuotedPrintable.decode (QuotedPrintable.encode s) = s ∧
      UrlEncoding.decode (UrlEncoding.encode s) = s ∧ HexEncoding.decode (HexEncoding.new.encode s) = s) ∧
    ∀ e : HexEncoding, (∀ s, HexEncoding.decode (e.encode s) = s) ↔ e.Hexadecimal := by
  constructor
  · intro s
    exact ⟨Base64.decode_of_encode s, QuotedPrintable.decode_of_encode s, UrlEncoding.decode_of_encode s,
      HexEncoding.hexadecimal_new.decode_of_encode s⟩
  · exact fun e => ⟨HexEncoding.hexadecimal_of_decode, HexEncoding.Hexadecimal.decode_of_encode⟩

end Afl.Charset
