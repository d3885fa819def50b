import Afl.Charset.Utf8Reader

/-!
# Reading back what was encoded

The reader takes the bytes of one rune and leaves what follows them, whatever that is. So a text of runes that are
characters is read back rune by rune, with every set of flags: a zero in two bytes and a pair of surrogates are read by
the flags that make the encoder write them.
-/

namespace Afl.Charset.Utf8Reader

/-! ### One encoded rune -/

theorem continuation_of_toNat {ch : UInt8} (h : ch.toNat / 64 = 2) : ch &&& 0xC0 = 0x80 := by
  apply UInt8.toNat_inj.mp
  have htop : (ch.toNat &&& 0xC0) >>> 6 = 2 := by
    rw [and_shiftRight_of_lt ch.toNat 0xC0 2 6 ch.toNat_lt (by decide)]
    exact h
  have hlow : (ch.toNat &&& 0xC0) % 64 = 0 := by
    have hmask : (ch.toNat &&& 0xC0) % 2 ^ 6 = (ch.toNat % 2 ^ 6) &&& (0xC0 % 2 ^ 6) := Nat.and_mod_two_pow
    simpa using hmask
  rw [Nat.shiftRight_eq_div_pow] at htop
  rw [UInt8.toNat_and]
  simp only [UInt8.reduceToNat]
  omega

theorem and_eq_zero_of_toNat {rune : Unichar} (h : rune.toNat < 2 ^ 26) : rune &&& 0xFC000000 = 0 := by
  apply UInt32.toNat_inj.mp
  have htop : (rune.toNat &&& 0xFC000000) >>> 26 = 0 := by
    rw [and_shiftRight_of_lt rune.toNat 0xFC000000 6 26 rune.toNat_lt (by decide)]
    exact Nat.div_eq_of_lt h
  have hlow : (rune.toNat &&& 0xFC000000) % 2 ^ 26 = 0 := by
    have hmask : (rune.toNat &&& 0xFC000000) % 2 ^ 26 = (rune.toNat % 2 ^ 26) &&& (0xFC000000 % 2 ^ 26) :=
      Nat.and_mod_two_pow
    simpa using hmask
  rw [Nat.shiftRight_eq_div_pow] at htop
  rw [UInt32.toNat_and]
  simp only [UInt32.reduceToNat]
  omega

theorem parseExtra_appendExtra {extra : Nat} (hextra : extra ≤ 6) {bits rune : Unichar}
    (hbits : bits.toNat = rune.toNat / 64 ^ extra) (rest : Bytes) :
    parseExtra extra bits (appendExtra extra rune ++ rest) = some rune := by
  induction extra generalizing bits with
  | zero =>
    rw [Nat.pow_zero, Nat.div_one] at hbits
    rw [parseExtra, UInt32.toNat_inj.mp hbits]
  | succ extra ih =>
    have hlt : bits.toNat < 2 ^ 26 := by
      have hrune := rune.toNat_lt
      rw [hbits, Nat.pow_succ, Nat.mul_comm, ← Nat.div_div_eq_div_mul]
      exact Nat.lt_of_le_of_lt (Nat.div_le_self _ _) (by omega)
    have hbyte := toNat_extraByte rune (i := extra) (by omega)
    rw [appendExtra, List.cons_append, parseExtra, if_pos ⟨continuation_of_toNat (by omega), and_eq_zero_of_toNat hlt⟩]
    apply ih (by omega)
    rw [toNat_addBits hlt, hbyte, hbits, Nat.pow_succ, ← Nat.div_div_eq_div_mul]
    omega

theorem toNat_leadByte (mark : UInt8) (rune : Unichar) (extra : Nat) (hextra : extra ≤ 5)
    (hfit : mark.toNat + rune.toNat / 64 ^ extra < 256) :
    (leadByte mark.toUInt32 (rune >>> UInt32.ofNat (6 * extra))).toNat = mark.toNat + rune.toNat / 64 ^ extra := by
  have hshift : (rune >>> UInt32.ofNat (6 * extra)).toNat = rune.toNat / 64 ^ extra := by
    rw [toNat_shiftRight (by omega), Nat.pow_mul]
  rw [leadByte, UInt32.toNat_toUInt8, UInt32.toNat_add, hshift, UInt8.toNat_toUInt32]
  omega

theorem toNat_bits {ch mark : UInt8} {n : Nat} (h : ch.toNat = mark.toNat + n) :
    (ch.toUInt32 - mark.toUInt32).toNat = n := by
  have hle : mark ≤ ch := by
    rw [UInt8.le_iff_toNat_le]
    omega
  rw [UInt32.toNat_sub_of_le _ _ (UInt8.toUInt32_le.mpr hle), UInt8.toNat_toUInt32, UInt8.toNat_toUInt32]
  omega

theorem lead_appendOne (rune : Unichar) (hrune : rune.toNat < 0x200000) :
    ∃ ch bits extra minVal, appendOne rune = ch :: appendExtra extra rune ∧ lead ch = some (bits, extra, minVal) ∧
      bits.toNat = rune.toNat / 64 ^ extra ∧ extra ≤ 3 ∧ (minVal ≤ rune ∨ rune.toNat < 0x80 ∧ extra = 1) := by
  rw [appendOne_eq]
  by_cases h2 : rune.toNat ≤ 0x7FF
  · have hch := toNat_leadByte 0xC0 rune 1 (by decide) (by simp; omega)
    refine ⟨_, _, 1, 0x80, by rw [if_pos h2], ?_, toNat_bits hch, by decide, ?_⟩
    · have hclass : ¬leadByte 0xC0 (rune >>> 6) < 0x80 ∧ leadByte 0xC0 (rune >>> 6) ≥ 0xC0 ∧
          leadByte 0xC0 (rune >>> 6) < 0xE0 := by
        simp at hch
        simp [UInt8.lt_iff_toNat_lt, UInt8.le_iff_toNat_le, hch]
        omega
      rw [lead, if_neg hclass.1, if_pos hclass.2]
      rfl
    · rw [UInt32.le_iff_toNat_le]
      simp
      omega
  by_cases h3 : rune.toNat ≤ 0xFFFF
  · have hch := toNat_leadByte 0xE0 rune 2 (by decide) (by simp; omega)
    refine ⟨_, _, 2, 0x800, by rw [if_neg h2, if_pos h3], ?_, toNat_bits hch, by decide, .inl ?_⟩
    · have hclass : ¬leadByte 0xE0 (rune >>> 12) < 0x80 ∧ ¬leadByte 0xE0 (rune >>> 12) < 0xE0 ∧
          leadByte 0xE0 (rune >>> 12) ≥ 0xE0 ∧ leadByte 0xE0 (rune >>> 12) < 0xF0 := by
        simp at hch
        simp [UInt8.lt_iff_toNat_lt, UInt8.le_iff_toNat_le, hch]
        omega
      rw [lead, if_neg hclass.1, if_neg fun h => hclass.2.1 h.2, if_pos hclass.2.2]
      rfl
    · rw [UInt32.le_iff_toNat_le]
      simp
      omega
  · have hch := toNat_leadByte 0xF0 rune 3 (by decide) (by simp; omega)
    refine ⟨_, _, 3, 0x10000, by rw [if_neg h2, if_neg h3, if_pos (by omega)], ?_, toNat_bits hch, by decide,
      .inl ?_⟩
    · have hclass : ¬leadByte 0xF0 (rune >>> 18) < 0x80 ∧ ¬leadByte 0xF0 (rune >>> 18) < 0xE0 ∧
          ¬leadByte 0xF0 (rune >>> 18) < 0xF0 ∧ leadByte 0xF0 (rune >>> 18) ≥ 0xF0 ∧
          leadByte 0xF0 (rune >>> 18) < 0xF8 := by
        simp at hch
        simp [UInt8.lt_iff_toNat_lt, UInt8.le_iff_toNat_le, hch]
        omega
      rw [lead, if_neg hclass.1, if_neg fun h => hclass.2.1 h.2, if_neg fun h => hclass.2.2.1 h.2,
        if_pos hclass.2.2.2]
      rfl
    · rw [UInt32.le_iff_toNat_le]
      simp
      omega

/-! ### The reader -/

/-- The range checks of the reader, apart from that for minimal encodings. -/
structure Accepted (flags : UInt32) (rune : Unichar) : Prop where
  escape : hasFlag flags allowErrorEscapes = true → isErrorCharacter rune = false
  max : rune < unicodeMax
  character : rune &&& 0xFFFF < 0xFFFE

theorem length_appendExtra (extra : Nat) (rune : Unichar) : (appendExtra extra rune).length = extra := by
  induction extra with
  | zero => rfl
  | succ extra ih => rw [appendExtra, List.length_cons, ih]

variable {flags : UInt32}

theorem Accepted.rejects {rune minVal : Unichar} {extra : Nat} (h : Accepted flags rune)
    (hmin : minVal ≤ rune ∨ rune = 0 ∧ hasFlag flags allowEncodedZero = true ∧ extra = 1) :
    rejects flags rune minVal extra = false := by
  have hescape : (isErrorCharacter rune && hasFlag flags allowErrorEscapes) = false := by
    rw [Bool.and_eq_false_iff, ← Bool.not_eq_true (hasFlag _ _)]
    exact or_iff_not_imp_right.mpr fun hflag => h.escape (not_not.mp hflag)
  have hshort : (decide (rune < minVal) && !hasFlag flags allowNonMinimal &&
      !(rune == 0 && hasFlag flags allowEncodedZero && extra == 1)) = false := by
    rcases hmin with hmin | ⟨rfl, hzero, rfl⟩
    · simp [UInt32.not_lt.mpr hmin]
    · simp [hzero]
  have hrange : ((decide (unicodeMax ≤ rune) || decide (0xFFFE ≤ rune &&& 0xFFFF)) &&
      !hasFlag flags allowNonCharacters) = false := by
    simp [UInt32.not_le.mpr h.max, UInt32.not_le.mpr h.character]
  rw [Utf8Reader.rejects, hescape, hshort, hrange]
  rfl

theorem parse_appendOne {rune : Unichar} (h : Accepted flags rune)
    (hzero : 0x80 ≤ rune ∨ rune = 0 ∧ hasFlag flags allowEncodedZero = true) (rest : Bytes) :
    ∃ ch, parse flags (appendOne rune ++ rest) = ⟨rune, ch, (appendOne rune).length⟩ := by
  have hmax : rune.toNat < 0x10FFFF := UInt32.lt_iff_toNat_lt.mp h.max
  obtain ⟨ch, bits, extra, minVal, happend, hlead, hbits, hextra, hmin⟩ := lead_appendOne rune (by omega)
  have hparse := parseExtra_appendExtra (by omega) hbits rest
  have haccept : rejects flags rune minVal extra = false := by
    refine h.rejects ?_
    rcases hmin with hmin | ⟨hlt, hone⟩
    · exact .inl hmin
    · rcases hzero with hlarge | ⟨hzero, hflag⟩
      · have hlarge : 128 ≤ rune.toNat := UInt32.le_iff_toNat_le.mp hlarge
        omega
      · exact .inr ⟨hzero, hflag, hone⟩
  refine ⟨ch, ?_⟩
  rw [happend, List.cons_append, parse, hlead]
  simp only [hparse, haccept, Bool.false_eq_true, if_false, List.length_cons, length_appendExtra]
  rw [Nat.add_comm]

theorem eat_of_parse {data : Bytes} {rune : Unichar} {ch : UInt8} {size : Nat}
    (hparse : parse flags data = ⟨rune, ch, size⟩) (hsize : size ≠ 0) (hhigh : isHighSurrogate rune = false)
    (hlow : isLowSurrogate rune = false) : eat flags data = (rune, data.drop size) := by
  simp only [eat, hparse, hsize, hhigh, hlow, if_false, Bool.false_eq_true]

theorem appendOne_ne_nil (rune : Unichar) : appendOne rune ≠ [] := by
  rw [appendOne]
  split_ifs <;> exact List.cons_ne_nil _ _

/-! ### Surrogates -/

theorem accepted_surrogate (flags : UInt32) {uc : Unichar} (h : isHighSurrogate uc = true ∨ isLowSurrogate uc = true) :
    Accepted flags uc ∧ 0x80 ≤ uc := by
  obtain ⟨herror, hascii⟩ := surrogate_range h
  have hrange : uc.toNat ≤ 0xDFFF := by
    simp only [isHighSurrogate, isLowSurrogate, unicodeHighSurrogateMin, unicodeHighSurrogateMax,
      unicodeLowSurrogateMin, unicodeLowSurrogateMax, Bool.and_eq_true, decide_eq_true_eq, ge_iff_le,
      UInt32.le_iff_toNat_le, UInt32.reduceToNat] at h
    omega
  refine ⟨⟨fun _ => herror, ?_, ?_⟩, UInt32.not_lt.mp hascii⟩
  · rw [UInt32.lt_iff_toNat_lt]
    simp [unicodeMax]
    omega
  · have hmask : uc.toNat &&& 65535 ≤ uc.toNat := Nat.and_le_left
    rw [UInt32.lt_iff_toNat_lt, UInt32.toNat_and]
    simp
    omega

def highSurrogate (ch : Unichar) : Unichar := unicodeHighSurrogateMin + (((ch - 0x10000) >>> 10) &&& 0x3FF)

def lowSurrogate (ch : Unichar) : Unichar := unicodeLowSurrogateMin + ((ch - 0x10000) &&& 0x3FF)

section

variable {ch : Unichar} (hmin : 0x10000 ≤ ch) (hmax : ch ≤ unicodeMax)

include hmin

theorem toNat_sub_plane : (ch - 0x10000).toNat = ch.toNat - 0x10000 := UInt32.toNat_sub_of_le _ _ hmin

theorem toNat_lowSurrogate : (lowSurrogate ch).toNat = 0xDC00 + (ch.toNat - 0x10000) % 1024 := by
  have hmask : (ch.toNat - 0x10000) &&& 0x3FF = (ch.toNat - 0x10000) % 1024 := Nat.and_two_pow_sub_one_eq_mod _ 10
  rw [lowSurrogate, UInt32.toNat_add, UInt32.toNat_and, toNat_sub_plane hmin]
  simp only [unicodeLowSurrogateMin, UInt32.reduceToNat, hmask]
  omega

include hmax

theorem toNat_highSurrogate : (highSurrogate ch).toNat = 0xD800 + (ch.toNat - 0x10000) / 1024 := by
  have hle : ch.toNat ≤ 0x10FFFF := UInt32.le_iff_toNat_le.mp hmax
  have hshift : ((ch - 0x10000) >>> 10).toNat = (ch.toNat - 0x10000) / 1024 := by
    rw [← toNat_sub_plane hmin]
    exact toNat_shiftRight (by decide)
  have hmask : (ch.toNat - 0x10000) / 1024 &&& 0x3FF = (ch.toNat - 0x10000) / 1024 % 1024 :=
    Nat.and_two_pow_sub_one_eq_mod _ 10
  rw [highSurrogate, UInt32.toNat_add, UInt32.toNat_and, hshift]
  simp only [unicodeHighSurrogateMin, UInt32.reduceToNat, hmask]
  omega

theorem isHighSurrogate_highSurrogate : isHighSurrogate (highSurrogate ch) = true := by
  have hle : ch.toNat ≤ 0x10FFFF := UInt32.le_iff_toNat_le.mp hmax
  have hvalue := toNat_highSurrogate hmin hmax
  simp only [isHighSurrogate, unicodeHighSurrogateMin, unicodeHighSurrogateMax, Bool.and_eq_true, decide_eq_true_eq,
    ge_iff_le, UInt32.le_iff_toNat_le, UInt32.reduceToNat]
  omega

omit hmax in
theorem isLowSurrogate_lowSurrogate : isLowSurrogate (lowSurrogate ch) = true := by
  have hvalue := toNat_lowSurrogate hmin
  simp only [isLowSurrogate, unicodeLowSurrogateMin, unicodeLowSurrogateMax, Bool.and_eq_true, decide_eq_true_eq,
    ge_iff_le, UInt32.le_iff_toNat_le, UInt32.reduceToNat]
  omega

theorem fromSurrogates_halves : fromSurrogates (highSurrogate ch) (lowSurrogate ch) = ch := by
  have hge : 0x10000 ≤ ch.toNat := UInt32.le_iff_toNat_le.mp hmin
  have hle : ch.toNat ≤ 0x10FFFF := UInt32.le_iff_toNat_le.mp hmax
  have hhigh : (highSurrogate ch).toNat &&& 0x3FF = (ch.toNat - 0x10000) / 1024 := by
    rw [toNat_highSurrogate hmin hmax, Nat.and_two_pow_sub_one_eq_mod _ 10]
    omega
  have hlow : (lowSurrogate ch).toNat &&& 0x3FF = (ch.toNat - 0x10000) % 1024 := by
    rw [toNat_lowSurrogate hmin, Nat.and_two_pow_sub_one_eq_mod _ 10]
    omega
  apply UInt32.toNat_inj.mp
  rw [fromSurrogates, UInt32.toNat_add, UInt32.toNat_add, UInt32.toNat_shiftLeft, UInt32.toNat_and, UInt32.toNat_and]
  simp only [UInt32.reduceToNat, hhigh, hlow, Nat.shiftLeft_eq, Nat.reduceMod, Nat.reducePow]
  omega

end

/-! ### Texts -/

/-- A Unicode scalar value that is a character and, where these are escapes, no error character. -/
structure Scalar (flags : UInt32) (ch : Unichar) : Prop where
  max : ch ≤ unicodeMax
  high : isHighSurrogate ch = false
  low : isLowSurrogate ch = false
  character : ch &&& 0xFFFF < 0xFFFE
  escape : hasFlag flags allowErrorEscapes = true → isErrorCharacter ch = false

variable {ch : Unichar}

theorem Scalar.accepted (h : Scalar flags ch) : Accepted flags ch := by
  refine ⟨h.escape, ?_, h.character⟩
  rw [UInt32.lt_iff_le_and_ne]
  refine ⟨h.max, ?_⟩
  rintro rfl
  exact absurd h.character (by decide)

theorem eat_surrogates (hflag : hasFlag flags allowSurrogates = true)
    (hmin : 0x10000 ≤ ch) (hmax : ch ≤ unicodeMax) (rest : Bytes) :
    eat flags (appendOne (highSurrogate ch) ++ appendOne (lowSurrogate ch) ++ rest) = (ch, rest) := by
  have hhigh := isHighSurrogate_highSurrogate hmin hmax
  have hlow := isLowSurrogate_lowSurrogate hmin
  obtain ⟨haccept, hlarge⟩ := accepted_surrogate flags (.inl hhigh)
  obtain ⟨haccept', hlarge'⟩ := accepted_surrogate flags (.inr hlow)
  obtain ⟨first, hfirst⟩ := parse_appendOne haccept (.inl hlarge) (appendOne (lowSurrogate ch) ++ rest)
  obtain ⟨second, hsecond⟩ := parse_appendOne haccept' (.inl hlarge') rest
  have hsize : (appendOne (highSurrogate ch)).length ≠ 0 :=
    (List.length_pos_of_ne_nil (appendOne_ne_nil (highSurrogate ch))).ne'
  rw [List.append_assoc]
  simp only [eat, hfirst, hsize, hhigh, hflag, if_true, if_false, List.drop_left, hsecond, hlow]
  rw [fromSurrogates_halves hmin hmax, ← List.drop_drop, List.drop_left, List.drop_left]

theorem eat_appendOne (h : Scalar flags ch)
    (hzero : 0x80 ≤ ch ∨ ch = 0 ∧ hasFlag flags allowEncodedZero = true) (rest : Bytes) :
    eat flags (appendOne ch ++ rest) = (ch, rest) := by
  obtain ⟨first, hparse⟩ := parse_appendOne h.accepted hzero rest
  have hsize := (List.length_pos_of_ne_nil (appendOne_ne_nil ch)).ne'
  rw [eat_of_parse hparse hsize h.high h.low, List.drop_left]

theorem eat_ascii (h : Scalar flags ch) (hch : ¬0x80 ≤ ch) (rest : Bytes) :
    eat flags (ch.toUInt8 :: rest) = (ch, rest) := by
  have hlt : ch.toNat < 128 := UInt32.lt_iff_toNat_lt.mp (UInt32.not_le.mp hch)
  have hsmall : ch.toUInt8 < 0x80 := by
    rw [UInt8.lt_iff_toNat_lt, UInt32.toNat_toUInt8]
    simp
    omega
  have hback : ch.toUInt8.toUInt32 = ch := by
    apply UInt32.toNat_inj.mp
    rw [UInt8.toNat_toUInt32, UInt32.toNat_toUInt8]
    omega
  have haccept : rejects flags ch.toUInt8.toUInt32 0 0 = false := rejects_ascii hsmall
  have hparse : parse flags (ch.toUInt8 :: rest) = ⟨ch, ch.toUInt8, 1⟩ := by
    rw [hback] at haccept
    rw [parse, lead, if_pos hsmall, hback]
    simp only [parseExtra, haccept, Bool.false_eq_true, if_false]
  rw [eat_of_parse hparse Nat.one_ne_zero h.high h.low]
  rfl

theorem eat_append (h : Scalar flags ch) (rest : Bytes) :
    eat flags (Utf8.append flags ch ++ rest) = (ch, rest) := by
  have hescape : ¬(hasFlag flags allowErrorEscapes && isErrorCharacter ch) = true := by
    rw [Bool.and_eq_true]
    rintro ⟨hflag, herror⟩
    rw [h.escape hflag] at herror
    cases herror
  rw [Utf8.append, if_neg hescape]
  split_ifs with hpair hzero hlarge
  · exact eat_surrogates hpair.2.2 hpair.1 hpair.2.1 rest
  · rw [← hzero.1]
    exact eat_appendOne h (.inr hzero) rest
  · exact eat_appendOne h (.inl hlarge) rest
  · exact eat_ascii h hlarge rest

theorem append_ne_nil (flags : UInt32) (ch : Unichar) : Utf8.append flags ch ≠ [] := by
  rw [Utf8.append]
  split_ifs
  · exact List.cons_ne_nil _ _
  · exact List.append_ne_nil_of_left_ne_nil (appendOne_ne_nil _) _
  · exact appendOne_ne_nil 0
  · exact appendOne_ne_nil ch
  · exact List.cons_ne_nil _ _

theorem eatAll_of_eat {data rest : Bytes} (hdata : data ≠ [])
    (h : eat flags data = (ch, rest)) : eatAll flags data = ch :: eatAll flags rest := by
  obtain ⟨first, data, rfl⟩ := List.exists_cons_of_ne_nil hdata
  rw [eatAll, h]

theorem eatAll_appendAll {text : List Unichar} (htext : ∀ ch ∈ text, Scalar flags ch) :
    eatAll flags (Utf8.appendAll flags text) = text := by
  induction text with
  | nil =>
    rw [Utf8.appendAll, List.flatMap_nil, eatAll]
  | cons ch text ih =>
    obtain ⟨hch, hrest⟩ := List.forall_mem_cons.mp htext
    have hdata : Utf8.append flags ch ++ Utf8.appendAll flags text ≠ [] :=
      List.append_ne_nil_of_left_ne_nil (append_ne_nil flags ch) _
    rw [Utf8.appendAll, List.flatMap_cons, ← Utf8.appendAll, eatAll_of_eat hdata (eat_append hch _), ih hrest]

/-- **Encoding and decoding again is the identity** on texts of characters, with all flags. -/
theorem encode_decode (flags : UInt32) (text : List Unichar) (htext : ∀ ch ∈ text, Scalar flags ch) :
    eatAll flags (Utf8.appendAll flags text) = text :=
  eatAll_appendAll htext

/-- Zero, a character of two bytes and one beyond the basic plane, in the form that Java uses. -/
theorem encode_decode_modified :
    let flags := allowEncodedZero ||| allowSurrogates
    let text : List Unichar := [0, 0xE4, 0x1F600]
    (∀ ch ∈ text, Scalar flags ch) ∧ eatAll flags (Utf8.appendAll flags text) = text := by
  intro flags text
  have htext : ∀ ch ∈ text, Scalar flags ch := by
    refine List.forall_mem_cons.mpr ⟨⟨by decide, by decide, by decide, by decide, by decide⟩, ?_⟩
    refine List.forall_mem_cons.mpr ⟨⟨by decide, by decide, by decide, by decide, by decide⟩, ?_⟩
    exact List.forall_mem_singleton.mpr ⟨by decide, by decide, by decide, by decide, by decide⟩
  exact ⟨htext, encode_decode flags text htext⟩

end Afl.Charset.Utf8Reader
