import Afl.Charset.Utf8

/-!
# UTF-8 decoding

`afl/charset/utf8reader.cpp`. A sequence that is not accepted yields an error character for its first byte, and
the bytes after it are looked at anew. The main result is that reading a text to its end and encoding the runes
again gives the text back, whatever its bytes are.
-/

namespace Afl.Charset.Utf8Reader

structure Character where
  value : Unichar
  firstChar : UInt8
  size : Nat

/-- The classes of lead bytes: the bits of the rune they hold, the number of bytes to follow, and the least rune
that needs them. -/
def lead (ch : UInt8) : Option (Unichar × Nat × Unichar) :=
  if ch < 0x80 then some (ch.toUInt32, 0, 0)
  else if ch ≥ 0xC0 ∧ ch < 0xE0 then some (ch.toUInt32 - 0xC0, 1, 0x80)
  else if ch ≥ 0xE0 ∧ ch < 0xF0 then some (ch.toUInt32 - 0xE0, 2, 0x800)
  else if ch ≥ 0xF0 ∧ ch < 0xF8 then some (ch.toUInt32 - 0xF0, 3, 0x10000)
  else if ch ≥ 0xF8 ∧ ch < 0xFC then some (ch.toUInt32 - 0xF8, 4, 0x200000)
  else if ch ≥ 0xFC ∧ ch < 0xFE then some (ch.toUInt32 - 0xFC, 5, 0x4000000)
  else if ch ≥ 0xFE ∧ ch < 0xFF then some (ch.toUInt32 - 0xFE, 6, 0x80000000)
  else none

/-- The loop of `parse` over the continuation bytes; `none` is a failure. -/
def parseExtra : Nat → Unichar → Bytes → Option Unichar
  | 0, rune, _ => some rune
  | _ + 1, _, [] => none
  | extra + 1, rune, ch :: data =>
    if ch &&& 0xC0 = 0x80 ∧ rune &&& 0xFC000000 = 0 then
      parseExtra extra ((rune <<< 6) ||| (ch &&& 0x3F).toUInt32) data
    else none

/-- The range checks of `parse`. -/
def rejects (flags : UInt32) (rune minVal : Unichar) (extra : Nat) : Bool :=
  (isErrorCharacter rune && hasFlag flags allowErrorEscapes) ||
    (rune < minVal && !hasFlag flags allowNonMinimal &&
      !(rune == 0 && hasFlag flags allowEncodedZero && extra == 1)) ||
    ((unicodeMax ≤ rune || 0xFFFE ≤ rune &&& 0xFFFF) && !hasFlag flags allowNonCharacters)

def parse (flags : UInt32) : Bytes → Character
  | [] => ⟨0, 0, 0⟩
  | ch :: data =>
    match lead ch with
    | none => ⟨makeErrorCharacter ch, ch, 1⟩
    | some (bits, extra, minVal) =>
      match parseExtra extra bits data with
      | none => ⟨makeErrorCharacter ch, ch, 1⟩
      | some rune =>
        if rejects flags rune minVal extra then ⟨makeErrorCharacter ch, ch, 1⟩
        else ⟨rune, ch, 1 + extra⟩

def isHighSurrogate (uc : Unichar) : Bool := uc ≥ unicodeHighSurrogateMin && uc ≤ unicodeHighSurrogateMax

def isLowSurrogate (uc : Unichar) : Bool := uc ≥ unicodeLowSurrogateMin && uc ≤ unicodeLowSurrogateMax

def fromSurrogates (high low : Unichar) : Unichar :=
  (0x10000 : Unichar) + ((high &&& 0x3FF) <<< 10) + (low &&& 0x3FF)

/-- `Utf8Reader::eat`: a rune and the data that remains. -/
def eat (flags : UInt32) (data : Bytes) : Unichar × Bytes :=
  let first := parse flags data
  if first.size = 0 then (0, data)
  else if isHighSurrogate first.value then
    if hasFlag flags allowSurrogates then
      let second := parse flags (data.drop first.size)
      if isLowSurrogate second.value then
        (fromSurrogates first.value second.value, data.drop (first.size + second.size))
      else (makeErrorCharacter first.firstChar, data.drop 1)
    else if hasFlag flags allowNonCharacters then (first.value, data.drop first.size)
    else (makeErrorCharacter first.firstChar, data.drop 1)
  else if isLowSurrogate first.value then
    if hasFlag flags allowNonCharacters then (first.value, data.drop first.size)
    else (makeErrorCharacter first.firstChar, data.drop 1)
  else (first.value, data.drop first.size)

variable {data : Bytes}

theorem size_parse_pos (flags : UInt32) (hdata : data ≠ []) : 0 < (parse flags data).size := by
  obtain ⟨ch, data, rfl⟩ := List.exists_cons_of_ne_nil hdata
  rw [parse]
  split
  · exact Nat.one_pos
  · split
    · exact Nat.one_pos
    · split_ifs
      · exact Nat.one_pos
      · exact Nat.add_pos_left Nat.one_pos _

theorem length_eat_lt (flags : UInt32) (hdata : data ≠ []) :
    (eat flags data).2.length < data.length := by
  have hsize := size_parse_pos flags hdata
  have hlength := List.length_pos_of_ne_nil hdata
  have hdrop : ∀ n, 0 < n → (data.drop n).length < data.length := by
    intro n hn
    rw [List.length_drop]
    omega
  simp only [eat, if_neg hsize.ne']
  split_ifs
  · exact hdrop _ (by omega)
  · exact hdrop 1 Nat.one_pos
  · exact hdrop _ hsize
  · exact hdrop 1 Nat.one_pos
  · exact hdrop _ hsize
  · exact hdrop 1 Nat.one_pos
  · exact hdrop _ hsize

/-- The runes of a text: `eat` while `hasMore`. -/
def eatAll (flags : UInt32) : Bytes → List Unichar
  | [] => []
  | ch :: data => (eat flags (ch :: data)).1 :: eatAll flags (eat flags (ch :: data)).2
termination_by data => data.length
decreasing_by exact length_eat_lt flags (List.cons_ne_nil ch data)

/-! ### Continuation bytes -/

theorem and_shiftRight_of_lt (n mask k m : Nat) (hn : n < 2 ^ (m + k)) (hmask : mask >>> m = 2 ^ k - 1) :
    (n &&& mask) >>> m = n / 2 ^ m := by
  have hlt : n >>> m < 2 ^ k := by
    rw [Nat.shiftRight_eq_div_pow]
    exact Nat.div_lt_of_lt_mul (by rwa [← Nat.pow_add])
  rw [Nat.shiftRight_and_distrib, hmask, Nat.and_two_pow_sub_one_of_lt_two_pow hlt, Nat.shiftRight_eq_div_pow]

variable {ch : UInt8}

theorem toNat_continuation (h : ch &&& 0xC0 = 0x80) : ch.toNat / 64 = 2 := by
  have htop := and_shiftRight_of_lt ch.toNat 0xC0 2 6 ch.toNat_lt (by decide)
  have hnat : ch.toNat &&& 0xC0 = 0x80 := congrArg UInt8.toNat h
  rw [hnat] at htop
  exact htop.symm

variable {rune : Unichar}

theorem toNat_lt_of_and (h : rune &&& 0xFC000000 = 0) : rune.toNat < 2 ^ 26 := by
  have htop := and_shiftRight_of_lt rune.toNat 0xFC000000 6 26 rune.toNat_lt (by decide)
  have hnat : rune.toNat &&& 0xFC000000 = 0 := congrArg UInt32.toNat h
  rw [hnat] at htop
  omega

theorem toNat_addBits (hrune : rune.toNat < 2 ^ 26) (ch : UInt8) :
    ((rune <<< 6) ||| (ch &&& 0x3F).toUInt32).toNat = 64 * rune.toNat + ch.toNat % 64 := by
  have hlow : ch.toNat &&& 63 = ch.toNat % 64 := Nat.and_two_pow_sub_one_eq_mod ch.toNat 6
  have hhigh : rune.toNat <<< 6 % 2 ^ 32 = rune.toNat <<< 6 := by
    rw [Nat.shiftLeft_eq]
    omega
  have hor := Nat.shiftLeft_add_eq_or_of_lt (i := 6) (b := ch.toNat % 64) (Nat.mod_lt _ (by decide)) rune.toNat
  rw [UInt32.toNat_or, UInt32.toNat_shiftLeft, UInt8.toNat_toUInt32, UInt8.toNat_and]
  simp only [UInt32.reduceToNat, UInt8.reduceToNat, Nat.reduceMod, hlow, hhigh]
  rw [← hor, Nat.shiftLeft_eq]
  omega

theorem toNat_shiftRight {n : Nat} (hn : n < 32) :
    (rune >>> UInt32.ofNat n).toNat = rune.toNat / 2 ^ n := by
  have hshift : (UInt32.ofNat n).toNat % 32 = n := by
    rw [UInt32.toNat_ofNat']
    omega
  rw [UInt32.toNat_shiftRight, hshift, Nat.shiftRight_eq_div_pow]

theorem toNat_extraByte (rune : Unichar) {i : Nat} (hi : i ≤ 5) :
    (UInt32.toUInt8 (0x80 + ((rune >>> UInt32.ofNat (6 * i)) &&& 0x3F))).toNat =
      128 + rune.toNat / 64 ^ i % 64 := by
  have hshift : (rune >>> UInt32.ofNat (6 * i)).toNat = rune.toNat / 64 ^ i := by
    rw [toNat_shiftRight (by omega), Nat.pow_mul]
  have hlow : rune.toNat / 64 ^ i &&& 63 = rune.toNat / 64 ^ i % 64 := Nat.and_two_pow_sub_one_eq_mod _ 6
  rw [UInt32.toNat_toUInt8, UInt32.toNat_add, UInt32.toNat_and, hshift]
  simp only [UInt32.reduceToNat, hlow]
  omega

variable {extra : Nat}

theorem parseExtra_spec (hextra : extra ≤ 6) {rune result : Unichar} (h : parseExtra extra rune data = some result) :
    data = appendExtra extra result ++ data.drop extra ∧ result.toNat / 64 ^ extra = rune.toNat := by
  induction extra generalizing rune data with
  | zero =>
    rw [parseExtra] at h
    obtain rfl := Option.some.inj h
    simp [appendExtra]
  | succ extra ih =>
    rcases data with _ | ⟨ch, data⟩
    · rw [parseExtra] at h
      cases h
    rw [parseExtra] at h
    split_ifs at h with hch
    obtain ⟨hdata, hresult⟩ := ih (by omega) h
    rw [toNat_addBits (toNat_lt_of_and hch.2)] at hresult
    have hbyte : UInt32.toUInt8 (0x80 + ((result >>> UInt32.ofNat (6 * extra)) &&& 0x3F)) = ch := by
      have htop := toNat_continuation hch.1
      apply UInt8.toNat_inj.mp
      rw [toNat_extraByte result (by omega), hresult]
      omega
    constructor
    · rw [appendExtra, hbyte, List.drop_succ_cons, List.cons_append, ← hdata]
    · rw [Nat.pow_succ, ← Nat.div_div_eq_div_mul, hresult]
      omega

/-! ### Whole characters -/

theorem leadByte_spec (mark stop : UInt8) (hch : ch ≥ mark ∧ ch < stop)
    (hextra : extra ≤ 5) (hbits : rune.toNat / 64 ^ extra = (ch.toUInt32 - mark.toUInt32).toNat) :
    leadByte mark.toUInt32 (rune >>> UInt32.ofNat (6 * extra)) = ch ∧
      rune.toNat < 64 ^ extra * (stop.toNat - mark.toNat) := by
  constructor
  · have htop : rune >>> UInt32.ofNat (6 * extra) = ch.toUInt32 - mark.toUInt32 := by
      apply UInt32.toNat_inj.mp
      rw [toNat_shiftRight (by omega), Nat.pow_mul]
      exact hbits
    rw [leadByte, htop, UInt32.add_comm, UInt32.sub_add_cancel]
    simp
  · have hmark := UInt8.le_iff_toNat_le.mp hch.1
    have hstop := UInt8.lt_iff_toNat_lt.mp hch.2
    have hvalue : (ch.toUInt32 - mark.toUInt32).toNat = ch.toNat - mark.toNat :=
      UInt32.toNat_sub_of_le _ _ (UInt8.toUInt32_le.mpr hch.1)
    rw [hvalue] at hbits
    rw [Nat.mul_comm]
    apply (Nat.div_lt_iff_lt_mul (Nat.pow_pos (by decide))).mp
    omega

theorem appendOne_eq (ch : Unichar) :
    appendOne ch =
      if ch.toNat ≤ 0x7FF then leadByte 0xC0 (ch >>> 6) :: appendExtra 1 ch
      else if ch.toNat ≤ 0xFFFF then leadByte 0xE0 (ch >>> 12) :: appendExtra 2 ch
      else if ch.toNat ≤ 0x1FFFFF then leadByte 0xF0 (ch >>> 18) :: appendExtra 3 ch
      else if ch.toNat ≤ 0x3FFFFFF then leadByte 0xF8 (ch >>> 24) :: appendExtra 4 ch
      else if ch.toNat ≤ 0x7FFFFFFF then leadByte 0xFC (ch >>> 30) :: appendExtra 5 ch
      else 0xFE :: appendExtra 6 ch := by
  simp only [appendOne, UInt32.le_iff_toNat_le, UInt32.reduceToNat]

theorem lead_bounds {bits minVal : Unichar} (hlead : lead ch = some (bits, extra, minVal))
    (hch : 0x80 ≤ ch) : extra ≤ 6 ∧ 0x80 ≤ minVal := by
  have hascii : ¬ch < 0x80 := UInt8.not_lt.mpr hch
  rw [lead, if_neg hascii] at hlead
  split_ifs at hlead <;> cases hlead <;> decide

theorem appendOne_of_lead {bits minVal rune : Unichar}
    (hlead : lead ch = some (bits, extra, minVal)) (hch : 0x80 ≤ ch) (hmin : minVal ≤ rune)
    (hbits : rune.toNat / 64 ^ extra = bits.toNat) : appendOne rune = ch :: appendExtra extra rune := by
  have hascii : ¬ch < 0x80 := UInt8.not_lt.mpr hch
  rw [UInt32.le_iff_toNat_le] at hmin
  rw [lead, if_neg hascii] at hlead
  rw [appendOne_eq]
  split_ifs at hlead with h2 h3 h4 h5 h6 h7 <;> cases hlead
  · obtain ⟨hbyte, hbound⟩ := leadByte_spec 0xC0 0xE0 h2 (by decide) hbits
    simp at hbound
    rw [if_pos (by omega)]
    exact congrArg (· :: _) hbyte
  · obtain ⟨hbyte, hbound⟩ := leadByte_spec 0xE0 0xF0 h3 (by decide) hbits
    simp at hbound hmin
    rw [if_neg (by omega), if_pos (by omega)]
    exact congrArg (· :: _) hbyte
  · obtain ⟨hbyte, hbound⟩ := leadByte_spec 0xF0 0xF8 h4 (by decide) hbits
    simp at hbound hmin
    rw [if_neg (by omega), if_neg (by omega), if_pos (by omega)]
    exact congrArg (· :: _) hbyte
  · obtain ⟨hbyte, hbound⟩ := leadByte_spec 0xF8 0xFC h5 (by decide) hbits
    simp at hbound hmin
    rw [if_neg (by omega), if_neg (by omega), if_neg (by omega), if_pos (by omega)]
    exact congrArg (· :: _) hbyte
  · obtain ⟨hbyte, hbound⟩ := leadByte_spec 0xFC 0xFE h6 (by decide) hbits
    simp at hbound hmin
    rw [if_neg (by omega), if_neg (by omega), if_neg (by omega), if_neg (by omega), if_pos (by omega)]
    exact congrArg (· :: _) hbyte
  · -- the seven-byte form has one lead byte only, and all the bits follow it
    have hbyte : ch = 0xFE := by
      have hlower := UInt8.le_iff_toNat_le.mp h7.1
      have hupper := UInt8.lt_iff_toNat_lt.mp h7.2
      apply UInt8.toNat_inj.mp
      simp at hlower hupper ⊢
      omega
    simp at hmin
    rw [if_neg (by omega), if_neg (by omega), if_neg (by omega), if_neg (by omega), if_neg (by omega), hbyte]

/-! ### The reader and the encoder -/

/-- The flags with which nothing is lost: undecodable bytes are escaped, and no rune has two encodings. -/
structure Lossless (flags : UInt32) : Prop where
  errorEscapes : hasFlag flags allowErrorEscapes = true
  nonMinimal : hasFlag flags allowNonMinimal = false
  surrogates : hasFlag flags allowSurrogates = false
  encodedZero : hasFlag flags allowEncodedZero = false

/-- The rune encodes to the bytes before `rest`. -/
def Restores (flags : UInt32) (data : Bytes) (rune : Unichar) (rest : Bytes) : Prop :=
  data = Utf8.append flags rune ++ rest

section

variable {flags : UInt32} (hflags : Lossless flags)

include hflags

theorem restores_error (hch : 0x80 ≤ ch) (data : Bytes) :
    Restores flags (ch :: data) (makeErrorCharacter ch) data := by
  rw [Restores, append_makeErrorCharacter hflags.errorEscapes hch]
  rfl

theorem append_ascii (hch : ch < 0x80) : Utf8.append flags ch.toUInt32 = [ch] := by
  have hlt : ch.toNat < 128 := UInt8.lt_iff_toNat_lt.mp hch
  have herror : isErrorCharacter ch.toUInt32 = false := by
    simp [isErrorCharacter, unicodeErrorMin, UInt32.le_iff_toNat_le]
    omega
  have hsmall : ¬0x80 ≤ ch.toUInt32 := by
    simp [UInt32.le_iff_toNat_le]
    omega
  rw [Utf8.append, herror, hflags.surrogates, hflags.encodedZero, if_neg (by simp), if_neg (by simp),
    if_neg (by simp), if_neg hsmall]
  simp

omit hflags in
theorem rejects_ascii (hch : ch < 0x80) : rejects flags ch.toUInt32 0 0 = false := by
  have hlt : ch.toNat < 128 := UInt8.lt_iff_toNat_lt.mp hch
  have hmask : ch.toNat &&& 65535 ≤ ch.toNat := Nat.and_le_left
  simp [rejects, isErrorCharacter, unicodeErrorMin, unicodeMax, UInt32.le_iff_toNat_le]
  omega

theorem restores_accepted {bits minVal rune : Unichar}
    (hlead : lead ch = some (bits, extra, minVal)) (hch : 0x80 ≤ ch) (hparse : parseExtra extra bits data = some rune)
    (haccept : rejects flags rune minVal extra = false) :
    Restores flags (ch :: data) rune (data.drop extra) := by
  obtain ⟨hextra, hminVal⟩ := lead_bounds hlead hch
  obtain ⟨hdata, hbits⟩ := parseExtra_spec hextra hparse
  simp only [rejects, hflags.errorEscapes, hflags.nonMinimal, hflags.encodedZero, Bool.or_eq_false_iff,
    Bool.and_true, Bool.and_false, Bool.false_and, Bool.not_false, decide_eq_false_iff_not] at haccept
  obtain ⟨⟨herror, hmin⟩, -⟩ := haccept
  have hmin : minVal ≤ rune := UInt32.not_lt.mp hmin
  have hlarge : 0x80 ≤ rune := UInt32.le_trans hminVal hmin
  have hencode : Utf8.append flags rune = ch :: appendExtra extra rune := by
    rw [Utf8.append, herror, hflags.surrogates, hflags.encodedZero, if_neg (by simp), if_neg (by simp),
      if_neg (by simp), if_pos hlarge]
    exact appendOne_of_lead hlead hch hmin hbits
  rw [Restores, hencode, List.cons_append, ← hdata]

/-- What `parse` finds at the start of a text: a character that encodes to the bytes it takes, or a byte of the
upper half that it escapes. -/
theorem parse_cases (ch : UInt8) (data : Bytes) :
    (0x80 ≤ ch ∧ parse flags (ch :: data) = ⟨makeErrorCharacter ch, ch, 1⟩) ∨
      ∃ rune size, parse flags (ch :: data) = ⟨rune, ch, size⟩ ∧ 0 < size ∧
        Restores flags (ch :: data) rune ((ch :: data).drop size) ∧ (0x80 ≤ ch ∨ rune < 0x80) := by
  by_cases hch : ch < 0x80
  · have hlead : lead ch = some (ch.toUInt32, 0, 0) := by rw [lead, if_pos hch]
    refine .inr ⟨ch.toUInt32, 1, ?_, Nat.one_pos, ?_, .inr ?_⟩
    · rw [parse, hlead]
      simp only [parseExtra]
      rw [rejects_ascii hch]
      rfl
    · rw [Restores, append_ascii hflags hch]
      rfl
    · exact UInt8.toUInt32_lt.mpr hch
  · have hch : 0x80 ≤ ch := UInt8.not_lt.mp hch
    rw [parse]
    rcases hlead : lead ch with _ | ⟨bits, extra, minVal⟩
    · exact .inl ⟨hch, rfl⟩
    simp only
    rcases hparse : parseExtra extra bits data with _ | rune
    · exact .inl ⟨hch, rfl⟩
    simp only
    cases hreject : rejects flags rune minVal extra with
    | true => exact .inl ⟨hch, rfl⟩
    | false =>
      refine .inr ⟨rune, 1 + extra, rfl, by omega, ?_, .inl hch⟩
      rw [Nat.add_comm, List.drop_succ_cons]
      exact restores_accepted hflags hlead hch hparse hreject

omit hflags in
theorem surrogate_range {uc : Unichar} (h : isHighSurrogate uc = true ∨ isLowSurrogate uc = true) :
    isErrorCharacter uc = false ∧ ¬uc < 0x80 := by
  simp only [isHighSurrogate, isLowSurrogate, isErrorCharacter, unicodeHighSurrogateMin, unicodeHighSurrogateMax,
    unicodeLowSurrogateMin, unicodeLowSurrogateMax, unicodeErrorMin, unicodeErrorMax, Bool.and_eq_true,
    Bool.and_eq_false_iff, decide_eq_true_eq, decide_eq_false_iff_not, ge_iff_le, UInt32.le_iff_toNat_le,
    UInt32.lt_iff_toNat_lt, UInt32.reduceToNat] at h ⊢
  omega

theorem eat_restores (hdata : data ≠ []) :
    Restores flags data (eat flags data).1 (eat flags data).2 := by
  obtain ⟨ch, data, rfl⟩ := List.exists_cons_of_ne_nil hdata
  rcases parse_cases hflags ch data with ⟨hch, hparse⟩ | ⟨rune, size, hparse, hsize, hrune, hascii⟩
  · have herror := isErrorCharacter_make hch
    have hhigh : ¬isHighSurrogate (makeErrorCharacter ch) = true := by
      intro h
      simp [(surrogate_range (.inl h)).1] at herror
    have hlow : ¬isLowSurrogate (makeErrorCharacter ch) = true := by
      intro h
      simp [(surrogate_range (.inr h)).1] at herror
    simp only [eat, hparse, if_neg hhigh, if_neg hlow]
    exact restores_error hflags hch data
  · have hescape : isHighSurrogate rune = true ∨ isLowSurrogate rune = true →
        Restores flags (ch :: data) (makeErrorCharacter ch) data := by
      intro h
      exact restores_error hflags (hascii.resolve_right (surrogate_range h).2) data
    simp only [eat, hparse, if_neg hsize.ne', hflags.surrogates, Bool.false_eq_true, if_false]
    split_ifs with hhigh hother hlow hother
    · exact hrune
    · exact hescape (.inl hhigh)
    · exact hrune
    · exact hescape (.inr hlow)
    · exact hrune

theorem appendAll_eatAll (data : Bytes) : Utf8.appendAll flags (eatAll flags data) = data := by
  induction hlength : data.length using Nat.strong_induction_on generalizing data with
  | _ n ih =>
    subst hlength
    rcases data with _ | ⟨ch, data⟩
    · rw [eatAll]
      rfl
    have hne : ch :: data ≠ [] := List.cons_ne_nil ch data
    have hrest := ih _ (length_eat_lt flags hne) _ rfl
    rw [eatAll, Utf8.appendAll, List.flatMap_cons]
    rw [Utf8.appendAll] at hrest
    rw [hrest]
    exact (eat_restores hflags hne).symm

end

/-- **Decoding and encoding again is the identity** on all texts, with error escapes on and with or without
non-characters. -/
theorem decode_encode (s : Bytes) :
    Utf8.appendAll allowErrorEscapes (eatAll allowErrorEscapes s) = s ∧
      Utf8.appendAll (allowErrorEscapes ||| allowNonCharacters) (eatAll (allowErrorEscapes ||| allowNonCharacters) s) =
        s := by
  have hplain : Lossless allowErrorEscapes := ⟨by decide, by decide, by decide, by decide⟩
  have hall : Lossless (allowErrorEscapes ||| allowNonCharacters) := ⟨by decide, by decide, by decide, by decide⟩
  exact ⟨appendAll_eatAll hplain s, appendAll_eatAll hall s⟩

end Afl.Charset.Utf8Reader
