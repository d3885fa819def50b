import Afl.Charset.RoundTrip
import Afl.Io.Xml.Entities
import Afl.Io.Xml.Input

/-!
# How the XML reader sees UTF-8

The reader takes UTF-8 apart by itself. It knows characters of up to three bytes, and takes each byte of a longer one
for a character of its own. `chars` are the characters it sees, and `recode` is the text that it makes of them.
-/

namespace Afl.Io.Xml

open Charset Charset.Utf8Reader Input

def chars (data : Bytes) : List Unichar := decode .utf8 none data

/-- The text that the reader makes of the characters it sees. -/
def recode (data : Bytes) : Bytes := Utf8.appendAll 0 (chars data)

def seen (ch : Unichar) : List Unichar := if ch ≤ 0xFFFF then [ch] else (Utf8.append 0 ch).map UInt8.toUInt32

/-- A text has no characters above U+FFFF: these begin with a byte of at least 0xF0. -/
def Narrow (s : Bytes) : Prop := ∀ b ∈ s, b < 0xF0

instance : DecidablePred Narrow := fun s => List.decidableBAll _ s

def Ascii (s : Bytes) : Prop := ∀ b ∈ s, 0 < b ∧ b < 0x80

instance : DecidablePred Ascii := fun s => List.decidableBAll _ s

/-! ### One character -/

theorem chars_nil : chars [] = [] := decode_none rfl

theorem nextChar_single {a : UInt8} (ha : a < 0xC0 ∨ 0xF0 ≤ a) (codepage : Option Codepage) (r : Bytes) :
    nextChar .utf8 codepage (a :: r) = some (a.toUInt32, r) := by
  have htwo : ¬(a ≥ 0xC0 ∧ a < 0xE0) := by
    simp only [ge_iff_le, UInt8.le_iff_toNat_le, UInt8.lt_iff_toNat_lt, UInt8.reduceToNat] at ha ⊢
    omega
  have hthree : ¬(a ≥ 0xE0 ∧ a < 0xF0) := by
    simp only [ge_iff_le, UInt8.le_iff_toNat_le, UInt8.lt_iff_toNat_lt, UInt8.reduceToNat] at ha ⊢
    omega
  rw [nextChar]
  simp only [withHead, if_neg htwo, if_neg hthree]

theorem chars_single {a : UInt8} (ha : a < 0xC0 ∨ 0xF0 ≤ a) (r : Bytes) : chars (a :: r) = a.toUInt32 :: chars r :=
  decode_some (nextChar_single ha none r)

theorem toNat_twoByteRune (a b : UInt8) : (twoByteRune a b).toNat = a.toNat % 32 * 64 + b.toNat % 64 := by
  have ha : a.toNat &&& 31 = a.toNat % 32 := Nat.and_two_pow_sub_one_eq_mod a.toNat 5
  have hb : b.toNat &&& 63 = b.toNat % 64 := Nat.and_two_pow_sub_one_eq_mod b.toNat 6
  rw [twoByteRune, UInt32.toNat_add, UInt32.toNat_shiftLeft, UInt32.toNat_and, UInt32.toNat_and, UInt8.toNat_toUInt32,
    UInt8.toNat_toUInt32]
  simp only [UInt32.reduceToNat, Nat.reduceMod, ha, hb, Nat.shiftLeft_eq]
  omega

theorem toNat_threeByteRune (a b c : UInt8) :
    (threeByteRune a b c).toNat = a.toNat % 16 * 4096 + b.toNat % 64 * 64 + c.toNat % 64 := by
  have ha : a.toNat &&& 15 = a.toNat % 16 := Nat.and_two_pow_sub_one_eq_mod a.toNat 4
  have hb : b.toNat &&& 63 = b.toNat % 64 := Nat.and_two_pow_sub_one_eq_mod b.toNat 6
  have hc : c.toNat &&& 63 = c.toNat % 64 := Nat.and_two_pow_sub_one_eq_mod c.toNat 6
  rw [threeByteRune, UInt32.toNat_add, UInt32.toNat_add, UInt32.toNat_shiftLeft, UInt32.toNat_shiftLeft,
    UInt32.toNat_and, UInt32.toNat_and, UInt32.toNat_and, UInt8.toNat_toUInt32, UInt8.toNat_toUInt32,
    UInt8.toNat_toUInt32]
  simp only [UInt32.reduceToNat, Nat.reduceMod, ha, hb, hc, Nat.shiftLeft_eq]
  omega

theorem append_cases (ch : Unichar) (hch : ch.toNat ≤ 0x10FFFF) :
    (ch.toNat < 0x80 ∧ Utf8.append 0 ch = [ch.toUInt8]) ∨
      (0x80 ≤ ch.toNat ∧ ch.toNat ≤ 0x7FF ∧ ∃ a b, Utf8.append 0 ch = [a, b] ∧
        a.toNat = 0xC0 + ch.toNat / 64 ∧ b.toNat = 0x80 + ch.toNat % 64) ∨
      (0x800 ≤ ch.toNat ∧ ch.toNat ≤ 0xFFFF ∧ ∃ a b c, Utf8.append 0 ch = [a, b, c] ∧
        a.toNat = 0xE0 + ch.toNat / 4096 ∧ b.toNat = 0x80 + ch.toNat / 64 % 64 ∧ c.toNat = 0x80 + ch.toNat % 64) ∨
      (0x10000 ≤ ch.toNat ∧ ∃ a b c d, Utf8.append 0 ch = [a, b, c, d] ∧ 0xF0 ≤ a.toNat ∧ a.toNat < 0xF8 ∧
        b.toNat / 64 = 2 ∧ c.toNat / 64 = 2 ∧ d.toNat / 64 = 2) := by
  have happend : Utf8.append 0 ch = if 0x80 ≤ ch.toNat then appendOne ch else [ch.toUInt8] := by
    have hflags : hasFlag 0 allowErrorEscapes = false ∧ hasFlag 0 allowSurrogates = false ∧
        hasFlag 0 allowEncodedZero = false := by decide
    simp only [Utf8.append, hflags, UInt32.le_iff_toNat_le, UInt32.reduceToNat]
    simp
  have hextra : ∀ i, i ≤ 5 → _ := fun i hi => toNat_extraByte ch (i := i) hi
  rw [happend]
  by_cases h1 : 0x80 ≤ ch.toNat
  · rw [if_pos h1, appendOne_eq]
    by_cases h2 : ch.toNat ≤ 0x7FF
    · refine .inr (.inl ⟨h1, h2, _, _, by rw [if_pos h2]; rfl, ?_, ?_⟩)
      · exact (toNat_leadByte 0xC0 ch 1 (by decide) (by simp; omega)).trans (by simp)
      · exact (hextra 0 (by decide)).trans (by simp)
    · by_cases h3 : ch.toNat ≤ 0xFFFF
      · refine .inr (.inr (.inl ⟨by omega, h3, _, _, _, by rw [if_neg h2, if_pos h3]; rfl, ?_, ?_, ?_⟩))
        · exact (toNat_leadByte 0xE0 ch 2 (by decide) (by simp; omega)).trans (by simp)
        · exact (hextra 1 (by decide)).trans (by simp)
        · exact (hextra 0 (by decide)).trans (by simp)
      · have hlead := toNat_leadByte 0xF0 ch 3 (by decide) (by simp; omega)
        refine .inr (.inr (.inr ⟨by omega, _, _, _, _, by rw [if_neg h2, if_neg h3, if_pos (by omega)]; rfl,
          ?_, ?_, ?_, ?_, ?_⟩))
        · exact hlead.symm ▸ Nat.le_add_right _ _
        · exact hlead.symm ▸ (by simp; omega)
        · rw [hextra 2 (by decide)]
          omega
        · rw [hextra 1 (by decide)]
          omega
        · rw [hextra 0 (by decide)]
          omega
  · rw [if_neg h1]
    exact .inl ⟨by omega, rfl⟩

variable {ch : Unichar}

theorem append_small (hch : ch.toNat < 0x80) : Utf8.append 0 ch = [ch.toUInt8] := by
  rcases append_cases ch (by omega) with ⟨-, happend⟩ | ⟨hle, -⟩ | ⟨hle, -⟩ | ⟨hle, -⟩
  · exact happend
  all_goals omega

theorem seen_narrow (hch : ch.toNat ≤ 0xFFFF) : seen ch = [ch] := if_pos (UInt32.le_iff_toNat_le.mpr hch)

theorem seen_wide (hch : 0xFFFF < ch.toNat) : seen ch = (Utf8.append 0 ch).map UInt8.toUInt32 :=
  if_neg fun hle => Nat.not_le.mpr hch (UInt32.le_iff_toNat_le.mp hle)

theorem nextChar_append (hch : ch.toNat ≤ 0xFFFF) (codepage : Option Codepage) (r : Bytes) :
    nextChar .utf8 codepage (Utf8.append 0 ch ++ r) = some (ch, r) := by
  rcases append_cases ch (by omega) with ⟨hlt, happend⟩ | ⟨_, hle, a, b, happend, ha, hb⟩ |
      ⟨_, hle, a, b, c, happend, ha, hb, hc⟩ | ⟨hlarge, _⟩
  · have hbyte : ch.toUInt8.toUInt32 = ch := by
      apply UInt32.toNat_inj.mp
      rw [UInt8.toNat_toUInt32, UInt32.toNat_toUInt8]
      omega
    have hsmall : ch.toUInt8 < 0xC0 := by
      rw [UInt8.lt_iff_toNat_lt, UInt32.toNat_toUInt8]
      simp only [UInt8.reduceToNat]
      omega
    rw [happend, List.singleton_append, nextChar_single (.inl hsmall), hbyte]
  · have hclass : a ≥ 0xC0 ∧ a < 0xE0 := by
      simp only [ge_iff_le, UInt8.le_iff_toNat_le, UInt8.lt_iff_toNat_lt, UInt8.reduceToNat]
      omega
    have hrune : twoByteRune a b = ch := by
      apply UInt32.toNat_inj.mp
      rw [toNat_twoByteRune]
      omega
    rw [happend, nextChar]
    simp only [List.cons_append, List.nil_append, withHead, if_pos hclass, hrune]
  · have hclass : ¬(a ≥ 0xC0 ∧ a < 0xE0) ∧ a ≥ 0xE0 ∧ a < 0xF0 := by
      simp only [ge_iff_le, UInt8.le_iff_toNat_le, UInt8.lt_iff_toNat_lt, UInt8.reduceToNat]
      omega
    have hrune : threeByteRune a b c = ch := by
      apply UInt32.toNat_inj.mp
      rw [toNat_threeByteRune]
      omega
    rw [happend, nextChar]
    simp only [List.cons_append, List.nil_append, withHead, if_neg hclass.1, if_pos hclass.2, hrune]
  · omega

theorem chars_append (hch : ch.toNat ≤ 0x10FFFF) (r : Bytes) :
    chars (Utf8.append 0 ch ++ r) = seen ch ++ chars r := by
  by_cases hnarrow : ch.toNat ≤ 0xFFFF
  · rw [seen_narrow hnarrow]
    exact decode_some (nextChar_append hnarrow none r)
  · rcases append_cases ch hch with ⟨hlt, _⟩ | ⟨_, hle, _⟩ | ⟨_, hle, _⟩ |
        ⟨hle, a, b, c, d, happend, ha, ha', hb, hc, hd⟩
    · omega
    · omega
    · omega
    · have hsingle : ∀ {x : UInt8}, x.toNat / 64 = 2 ∨ 0xF0 ≤ x.toNat → x < 0xC0 ∨ 0xF0 ≤ x := by
        intro x hx
        simp only [UInt8.le_iff_toNat_le, UInt8.lt_iff_toNat_lt, UInt8.reduceToNat]
        omega
      rw [seen_wide (by omega), happend]
      simp only [List.cons_append, List.nil_append, List.map_cons, List.map_nil]
      rw [chars_single (hsingle (.inr ha)), chars_single (hsingle (.inl hb)), chars_single (hsingle (.inl hc)),
        chars_single (hsingle (.inl hd))]

/-! ### Texts -/

/-- The characters of a text are Unicode. -/
def Unicode (text : List Unichar) : Prop := ∀ ch ∈ text, ch.toNat ≤ 0x10FFFF

theorem appendAll_cons (ch : Unichar) (text : List Unichar) :
    Utf8.appendAll 0 (ch :: text) = Utf8.append 0 ch ++ Utf8.appendAll 0 text := List.flatMap_cons

theorem appendAll_append (text text' : List Unichar) :
    Utf8.appendAll 0 (text ++ text') = Utf8.appendAll 0 text ++ Utf8.appendAll 0 text' := List.flatMap_append

theorem appendAll_singleton (ch : Unichar) : Utf8.appendAll 0 [ch] = Utf8.append 0 ch := List.flatMap_singleton _ _

variable {text : List Unichar}

theorem chars_appendAll (htext : Unicode text) (r : Bytes) :
    chars (Utf8.appendAll 0 text ++ r) = text.flatMap seen ++ chars r := by
  induction text with
  | nil => rfl
  | cons ch text ih =>
    obtain ⟨hch, hrest⟩ := List.forall_mem_cons.mp htext
    rw [appendAll_cons, List.append_assoc, chars_append hch, ih hrest, List.flatMap_cons, List.append_assoc]

theorem chars_appendAll_self (htext : Unicode text) :
    chars (Utf8.appendAll 0 text) = text.flatMap seen := by
  have happend := chars_appendAll htext []
  rwa [List.append_nil, chars_nil, List.append_nil] at happend

theorem append_bytes (hch : ch.toNat ≤ 0x10FFFF) {x : UInt8} (hx : x ∈ Utf8.append 0 ch) :
    (ch.toNat < 0x80 ∧ x = ch.toUInt8) ∨ (0x80 ≤ ch.toNat ∧ 0x80 ≤ x.toNat ∧ x.toNat < 0xF8) := by
  rcases append_cases ch hch with ⟨hlt, happend⟩ | ⟨hge, hle, a, b, happend, ha, hb⟩ |
      ⟨hge, hle, a, b, c, happend, ha, hb, hc⟩ | ⟨hge, a, b, c, d, happend, ha, ha', hb, hc, hd⟩
  all_goals rw [happend] at hx; simp only [List.mem_cons, List.not_mem_nil, or_false] at hx
  · exact .inl ⟨hlt, hx⟩
  · rcases hx with rfl | rfl <;> exact .inr (by omega)
  · rcases hx with rfl | rfl | rfl <;> exact .inr (by omega)
  · rcases hx with rfl | rfl | rfl | rfl <;> exact .inr (by omega)

theorem narrow_append {s t : Bytes} : Narrow (s ++ t) ↔ Narrow s ∧ Narrow t := List.forall_mem_append

theorem narrow_append_iff (hch : ch.toNat ≤ 0x10FFFF) :
    Narrow (Utf8.append 0 ch) ↔ ch.toNat ≤ 0xFFFF := by
  unfold Narrow
  simp only [UInt8.lt_iff_toNat_lt, UInt8.reduceToNat]
  rcases append_cases ch hch with ⟨hlt, happend⟩ | ⟨hge, hle, a, b, happend, ha, hb⟩ |
      ⟨hge, hle, a, b, c, happend, ha, hb, hc⟩ | ⟨hge, a, b, c, d, happend, ha, ha', hb, hc, hd⟩
  all_goals rw [happend]; simp only [List.forall_mem_cons, List.not_mem_nil]
  · rw [UInt32.toNat_toUInt8]
    exact ⟨fun _ => by omega, fun _ => ⟨by omega, nofun⟩⟩
  · exact ⟨fun _ => by omega, fun _ => ⟨by omega, by omega, nofun⟩⟩
  · exact ⟨fun _ => hle, fun _ => ⟨by omega, by omega, by omega, nofun⟩⟩
  · exact ⟨fun h => by omega, fun h => by omega⟩

theorem narrow_appendAll_iff (htext : Unicode text) :
    Narrow (Utf8.appendAll 0 text) ↔ ∀ ch ∈ text, ch.toNat ≤ 0xFFFF := by
  induction text with
  | nil => exact ⟨nofun, nofun⟩
  | cons ch text ih =>
    obtain ⟨hch, hrest⟩ := List.forall_mem_cons.mp htext
    rw [appendAll_cons, narrow_append, narrow_append_iff hch, ih hrest, List.forall_mem_cons]

theorem toNat_toUInt32_le (a : UInt8) : a.toUInt32.toNat ≤ 0xFFFF := by
  have hlt := a.toNat_lt
  rw [UInt8.toNat_toUInt32]
  omega

theorem toNat_pair_le (a b : UInt8) : (256 * a.toUInt32 + b.toUInt32).toNat ≤ 0xFFFF := by
  have ha := a.toNat_lt
  have hb := b.toNat_lt
  rw [UInt32.toNat_add, UInt32.toNat_mul, UInt8.toNat_toUInt32, UInt8.toNat_toUInt32]
  simp only [UInt32.reduceToNat]
  omega

theorem toNat_mapped_le (codepage : Option Codepage) (a : UInt8) : (mapped codepage a).toNat ≤ 0xFFFF := by
  unfold mapped
  cases codepage with
  | none => exact toNat_toUInt32_le a
  | some codepage =>
    simp only
    split_ifs
    · exact Nat.le_of_lt_succ (UInt16.toNat_lt _)
    · exact toNat_toUInt32_le a

/-- The results of a function that gives characters up to U+FFFF. -/
def Small (f : UInt8 → Bytes → Option (Unichar × Bytes)) : Prop := ∀ a r ch r', f a r = some (ch, r') → ch.toNat ≤ 0xFFFF

theorem le_of_withHead {f : UInt8 → Bytes → Option (Unichar × Bytes)} (hf : Small f) {data r : Bytes}
    (h : withHead data f = some (ch, r)) : ch.toNat ≤ 0xFFFF := by
  cases data with
  | nil => cases h
  | cons a data => exact hf a data ch r h

theorem small_some {rune : UInt8 → Unichar} (h : ∀ a, (rune a).toNat ≤ 0xFFFF) :
    Small fun a r => some (rune a, r) := by
  rintro a r ch r' hsome
  cases hsome
  exact h a

theorem small_withHead {f : UInt8 → UInt8 → Bytes → Option (Unichar × Bytes)} (h : ∀ a, Small (f a)) :
    Small fun a r => withHead r (f a) := fun a _ _ _ hnext => le_of_withHead (h a) hnext

theorem le_of_nextChar {encoding : Encoding} {codepage : Option Codepage} {data r : Bytes}
    (h : nextChar encoding codepage data = some (ch, r)) : ch.toNat ≤ 0xFFFF := by
  have htwo : ∀ a b, (twoByteRune a b).toNat ≤ 0xFFFF := by
    intro a b
    rw [toNat_twoByteRune]
    omega
  have hthree : ∀ a b c, (threeByteRune a b c).toNat ≤ 0xFFFF := by
    intro a b c
    rw [toNat_threeByteRune]
    omega
  unfold nextChar at h
  cases encoding with
  | codepage => exact le_of_withHead (small_some (toNat_mapped_le codepage)) h
  | utf16BE => exact le_of_withHead (small_withHead fun a => small_some (toNat_pair_le a)) h
  | utf16LE => exact le_of_withHead (small_withHead fun a => small_some fun b => toNat_pair_le b a) h
  | utf8 =>
    refine le_of_withHead (fun a r ch r' hnext => ?_) h
    split_ifs at hnext
    · exact le_of_withHead (small_some (htwo a)) hnext
    · exact le_of_withHead (small_withHead fun b => small_some (hthree a b)) hnext
    · exact small_some toNat_toUInt32_le a r ch r' hnext

theorem le_of_mem_decode {encoding : Encoding} {codepage : Option Codepage} {data : Bytes} :
    ∀ ch ∈ decode encoding codepage data, ch.toNat ≤ 0xFFFF := by
  fun_induction decode encoding codepage data with
  | case1 data hnone => exact List.forall_mem_nil _
  | case2 data ch r hsome ih => exact List.forall_mem_cons.mpr ⟨le_of_nextChar hsome, ih⟩

theorem narrow_of_le (htext : ∀ ch ∈ text, ch.toNat ≤ 0xFFFF) : Narrow (Utf8.appendAll 0 text) :=
  (narrow_appendAll_iff fun ch hch => (htext ch hch).trans (by decide)).mpr htext

theorem narrow_recode (s : Bytes) : Narrow (recode s) := narrow_of_le le_of_mem_decode

/-! ### Content -/

/-- UTF-8 without NUL. -/
def Content (s : Bytes) : Prop :=
  ∃ text : List Unichar, (∀ ch ∈ text, 0 < ch.toNat ∧ ch.toNat ≤ 0x10FFFF) ∧ s = Utf8.appendAll 0 text

variable {s : Bytes}

theorem Content.of_ascii (hs : Ascii s) : Content s := by
  refine ⟨s.map UInt8.toUInt32, fun ch hch => ?_, ?_⟩
  · obtain ⟨b, hb, rfl⟩ := List.mem_map.mp hch
    have hascii := hs b hb
    simp only [UInt8.lt_iff_toNat_lt, UInt8.reduceToNat] at hascii
    rw [UInt8.toNat_toUInt32]
    omega
  · induction s with
    | nil => rfl
    | cons b s ih =>
      obtain ⟨hb, hrest⟩ := List.forall_mem_cons.mp hs
      have hsmall : b.toUInt32.toNat < 0x80 := by
        rw [UInt8.toNat_toUInt32]
        exact hb.2
      rw [List.map_cons, appendAll_cons, append_small hsmall, ← ih hrest, UInt8.toUInt8_toUInt32, List.singleton_append]

theorem Ascii.narrow (hs : Ascii s) : Narrow s := fun b hb => UInt8.lt_trans (hs b hb).2 (by decide)

theorem flatMap_seen (htext : ∀ ch ∈ text, ch.toNat ≤ 0xFFFF) : text.flatMap seen = text := by
  induction text with
  | nil => rfl
  | cons ch text ih =>
    obtain ⟨hch, hrest⟩ := List.forall_mem_cons.mp htext
    rw [List.flatMap_cons, seen_narrow hch, ih hrest, List.singleton_append]

theorem recode_eq_iff (hs : Content s) : recode s = s ↔ Narrow s := by
  obtain ⟨text, htext, rfl⟩ := hs
  have hunicode : Unicode text := fun ch hch => (htext ch hch).2
  constructor
  · intro h
    rw [← h]
    exact narrow_recode _
  · intro h
    rw [recode, chars_appendAll_self hunicode, flatMap_seen ((narrow_appendAll_iff hunicode).mp h)]

/-! ### Escaping -/

/-- What `escape` makes of a character. -/
def escapeRune (ch : Unichar) : List Unichar :=
  if ch = 60 ∨ ch = 62 ∨ ch = 38 ∨ ch = 34 then (escapeChar ch.toUInt8).map UInt8.toUInt32 else [ch]

theorem isSpecial_of_le {b : UInt8} (hb : 0x80 ≤ b.toNat) : isSpecial b = false := by
  simp only [isSpecial, Bool.or_eq_false_iff, beq_eq_false_iff_ne, ne_eq, ← UInt8.toNat_inj, UInt8.reduceToNat]
  omega

theorem escape_append_of_not (hch : ch.toNat ≤ 0x10FFFF)
    (hnot : ¬(ch = 60 ∨ ch = 62 ∨ ch = 38 ∨ ch = 34)) : escape (Utf8.append 0 ch) = Utf8.append 0 ch := by
  apply escape_eq_iff.mpr
  intro b hb
  rcases append_bytes hch hb with ⟨hlt, rfl⟩ | ⟨-, hb, -⟩
  · simp only [← UInt32.toNat_inj, UInt32.reduceToNat] at hnot
    simp only [isSpecial, Bool.or_eq_false_iff, beq_eq_false_iff_ne, ne_eq, ← UInt8.toNat_inj, UInt8.reduceToNat,
      UInt32.toNat_toUInt8]
    omega
  · exact isSpecial_of_le hb

theorem escape_appendBytes (s t : Bytes) : escape (s ++ t) = escape s ++ escape t := List.flatMap_append

theorem escape_append (hch : ch.toNat ≤ 0x10FFFF) :
    escape (Utf8.append 0 ch) = Utf8.appendAll 0 (escapeRune ch) := by
  unfold escapeRune
  split_ifs with hspecial
  · rcases hspecial with rfl | rfl | rfl | rfl <;> decide
  · rw [escape_append_of_not hch hspecial]
    exact (appendAll_singleton ch).symm

theorem escape_appendAll (htext : Unicode text) :
    escape (Utf8.appendAll 0 text) = Utf8.appendAll 0 (text.flatMap escapeRune) := by
  induction text with
  | nil => rfl
  | cons ch text ih =>
    obtain ⟨hch, hrest⟩ := List.forall_mem_cons.mp htext
    rw [appendAll_cons, escape_appendBytes, escape_append hch, ih hrest, List.flatMap_cons, appendAll_append]

theorem ascii_escapeChar {ch : UInt8} (h : isSpecial ch = true) : Ascii (escapeChar ch) := by
  simp only [isSpecial, Bool.or_eq_true, beq_iff_eq] at h
  rcases h with ((rfl | rfl) | rfl) | rfl <;> decide

theorem mem_escapeRune {ch c : Unichar} (h : c ∈ escapeRune ch) : c = ch ∨ 0 < c.toNat ∧ c.toNat < 0x80 := by
  unfold escapeRune at h
  split_ifs at h with hspecial
  · obtain ⟨b, hb, rfl⟩ := List.mem_map.mp h
    have hspecial' : isSpecial ch.toUInt8 = true := by
      rcases hspecial with rfl | rfl | rfl | rfl <;> decide
    have hascii := ascii_escapeChar hspecial' b hb
    simp only [UInt8.lt_iff_toNat_lt, UInt8.reduceToNat] at hascii
    rw [UInt8.toNat_toUInt32]
    exact .inr hascii
  · exact .inl (List.mem_singleton.mp h)

theorem Content.escape (hs : Content s) : Content (escape s) := by
  obtain ⟨text, htext, rfl⟩ := hs
  refine ⟨text.flatMap escapeRune, ?_, escape_appendAll fun ch hch => (htext ch hch).2⟩
  intro c hc
  obtain ⟨ch, hch, hmem⟩ := List.mem_flatMap.mp hc
  rcases mem_escapeRune hmem with rfl | ⟨hpos, hlt⟩
  · exact htext c hch
  · exact ⟨hpos, by omega⟩

theorem mem_seen {ch c : Unichar} (hch : ch.toNat ≤ 0x10FFFF) (h : c ∈ seen ch) :
    c.toNat ≤ 0xFFFF ∧ (c = ch ∨ 0x80 ≤ c.toNat) := by
  by_cases hle : ch.toNat ≤ 0xFFFF
  · rw [seen_narrow hle] at h
    obtain rfl := List.mem_singleton.mp h
    exact ⟨hle, .inl rfl⟩
  · rw [seen_wide (by omega)] at h
    obtain ⟨b, hb, rfl⟩ := List.mem_map.mp h
    refine ⟨toNat_toUInt32_le b, .inr ?_⟩
    rw [UInt8.toNat_toUInt32]
    rcases append_bytes hch hb with ⟨hlt, -⟩ | ⟨-, hb, -⟩
    · omega
    · exact hb

theorem flatMap_seen_escapeRune (hch : ch.toNat ≤ 0x10FFFF) :
    (escapeRune ch).flatMap seen = (seen ch).flatMap escapeRune := by
  by_cases hspecial : ch = 60 ∨ ch = 62 ∨ ch = 38 ∨ ch = 34
  · rcases hspecial with rfl | rfl | rfl | rfl <;> decide
  · have hplain : ∀ c ∈ seen ch, escapeRune c = [c] := by
      intro c hc
      refine if_neg ?_
      rcases (mem_seen hch hc).2 with rfl | hle
      · exact hspecial
      · simp only [← UInt32.toNat_inj, UInt32.reduceToNat]
        omega
    have hself : escapeRune ch = [ch] := if_neg hspecial
    rw [hself, List.flatMap_singleton, List.flatMap_congr hplain, List.flatMap_singleton']

/-- **Escaping.** The reader sees an escaped text as the text that it would see, escaped. -/
theorem recode_escape (hs : Content s) : recode (escape s) = escape (recode s) := by
  obtain ⟨text, htext, rfl⟩ := hs
  have hunicode : Unicode text := fun ch hch => (htext ch hch).2
  have hseen : Unicode (text.flatMap seen) := by
    intro c hc
    obtain ⟨ch, hch, hmem⟩ := List.mem_flatMap.mp hc
    exact (mem_seen (hunicode ch hch) hmem).1.trans (by decide)
  have hescaped : Unicode (text.flatMap escapeRune) := by
    intro c hc
    obtain ⟨ch, hch, hmem⟩ := List.mem_flatMap.mp hc
    rcases mem_escapeRune hmem with rfl | ⟨-, hlt⟩
    · exact hunicode c hch
    · omega
  rw [recode, recode, chars_appendAll_self hunicode, escape_appendAll hunicode, chars_appendAll_self hescaped,
    escape_appendAll hseen, List.flatMap_assoc, List.flatMap_assoc]
  exact congrArg _ (List.flatMap_congr fun ch hch => flatMap_seen_escapeRune (hunicode ch hch))

theorem mem_of_mem_chars (hs : Content s) {b : UInt8} (hb : b < 0x80) (h : b.toUInt32 ∈ chars s) : b ∈ s := by
  obtain ⟨text, htext, rfl⟩ := hs
  have hunicode : Unicode text := fun ch hch => (htext ch hch).2
  rw [chars_appendAll_self hunicode] at h
  obtain ⟨ch, hch, hmem⟩ := List.mem_flatMap.mp h
  rw [UInt8.lt_iff_toNat_lt] at hb
  simp only [UInt8.reduceToNat] at hb
  have hsame : b.toUInt32 = ch := by
    refine (mem_seen (hunicode ch hch) hmem).2.resolve_right ?_
    rw [UInt8.toNat_toUInt32]
    omega
  refine List.mem_flatMap.mpr ⟨ch, hch, ?_⟩
  subst hsame
  rw [append_small (by rw [UInt8.toNat_toUInt32]; exact hb), UInt8.toUInt8_toUInt32]
  exact List.mem_singleton.mpr rfl

theorem not_mem_escape (s : Bytes) : 60 ∉ escape s ∧ 34 ∉ escape s := by
  have hchar : ∀ ch : UInt8, 60 ∉ escapeChar ch ∧ 34 ∉ escapeChar ch := by
    intro ch
    unfold escapeChar
    split_ifs with hlt hgt hamp hquot
    · decide
    · decide
    · decide
    · decide
    · simp only [List.mem_singleton]
      exact ⟨fun h => hlt h.symm, fun h => hquot h.symm⟩
  constructor
  · intro h
    obtain ⟨ch, -, hmem⟩ := List.mem_flatMap.mp h
    exact (hchar ch).1 hmem
  · intro h
    obtain ⟨ch, -, hmem⟩ := List.mem_flatMap.mp h
    exact (hchar ch).2 hmem

theorem not_mem_chars_escape (hs : Content s) : 60 ∉ chars (escape s) ∧ 34 ∉ chars (escape s) :=
  ⟨fun h => (not_mem_escape s).1 (mem_of_mem_chars hs.escape (by decide) h),
    fun h => (not_mem_escape s).2 (mem_of_mem_chars hs.escape (by decide) h)⟩

end Afl.Io.Xml
