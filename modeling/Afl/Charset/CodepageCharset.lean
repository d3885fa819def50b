import Afl.Charset.Codepage
import Mathlib.Data.Bool.AllAny
import Mathlib.Data.List.Nodup

/-!
# Codepage charsets

`afl/charset/codepagecharset.cpp`. A byte is decoded to the character of the codepage, and a character is encoded as the
first byte that has it. The bytes that the codepage leaves undefined have the character 0, and some others have an ASCII
character, so these are encoded as ASCII.
-/

namespace Afl.Charset

open Utf8Reader

namespace Codepage

variable (cp : Codepage)

/-- What `CodepageCharset::encode` appends for a character: those that are not found are dropped. -/
def encodeChar (ch : Unichar) : Bytes :=
  if ch < 0x80 then [ch.toUInt8]
  else
    match cp.characters.findIdx? (fun c => c.toUInt32 = ch) with
    | some i => [UInt8.ofNat (0x80 + i)]
    | none => []

def encode (s : Bytes) : Bytes := (eatAll 0 s).flatMap cp.encodeChar

/-- The character that `CodepageCharset::decode` appends for a byte. -/
def decodeByte (ch : UInt8) : Unichar :=
  if ch < 0x80 then ch.toUInt32 else (cp.characters.getD (ch.toNat - 0x80) 0).toUInt32

def decode (bytes : Bytes) : Bytes := Utf8.appendAll 0 (bytes.map cp.decodeByte)

/-! ### Distinct entries -/

/-- No number of the list is among those seen, or twice in the list. The numbers seen are the bits of a number. -/
def distinct : Nat → List Nat → Bool
  | _, [] => true
  | seen, n :: ns => !seen.testBit n && distinct (seen ||| 2 ^ n) ns

theorem nodup_of_distinct {seen : Nat} {ns : List Nat} (h : distinct seen ns = true) :
    ns.Nodup ∧ ∀ n ∈ ns, seen.testBit n = false := by
  induction ns generalizing seen with
  | nil => exact ⟨List.nodup_nil, fun n hn => absurd hn List.not_mem_nil⟩
  | cons n ns ih =>
    rw [distinct, Bool.and_eq_true, Bool.not_eq_true'] at h
    obtain ⟨hnodup, hseen⟩ := ih h.2
    have hbit : ∀ m ∈ ns, seen.testBit m = false ∧ m ≠ n := by
      intro m hm
      have hm := hseen m hm
      rw [Nat.testBit_or, Bool.or_eq_false_iff, Nat.testBit_two_pow] at hm
      exact ⟨hm.1, fun heq => of_decide_eq_false hm.2 heq.symm⟩
    refine ⟨List.nodup_cons.mpr ⟨fun hmem => (hbit n hmem).2 rfl, hnodup⟩, ?_⟩
    exact List.forall_mem_cons.mpr ⟨h.1, fun m hm => (hbit m hm).1⟩

/-- All entries are characters below the surrogates, and no character beyond ASCII is listed twice. -/
structure Regular (cp : Codepage) : Prop where
  scalar : ∀ u ∈ cp.characters, u.toNat < 0xD800
  nodup : (cp.characters.filter (0x80 ≤ ·)).Nodup

theorem regular_of_check (hscalar : (cp.characters.all fun u => u.toNat < 0xD800) = true)
    (hdistinct : distinct 0 ((cp.characters.filter (0x80 ≤ ·)).map UInt16.toNat) = true) : cp.Regular :=
  ⟨List.all_iff_forall_prop.mp hscalar, List.Nodup.of_map _ (nodup_of_distinct hdistinct).1⟩

theorem regular_predefined : ∀ cp ∈ predefined, cp.Regular := by
  simp only [predefined, List.forall_mem_cons]
  refine ⟨?_, ?_, ?_, ?_, ?_, ?_, ?_, ?_, ?_, ?_, fun cp hcp => absurd hcp List.not_mem_nil⟩ <;>
    exact regular_of_check _ (by decide +kernel) (by decide +kernel)

/-! ### Round trip -/

theorem findIdx?_of_nodup {α : Type} [DecidableEq α] {p : α → Bool} {l : List α} {a : α} {i : Nat}
    (h : (l.filter p).Nodup) (hi : l[i]? = some a) (ha : p a = true) : l.findIdx? (· = a) = some i := by
  induction l generalizing i with
  | nil => cases hi
  | cons b l ih =>
    cases i with
    | zero =>
      obtain rfl : b = a := Option.some.inj hi
      rw [List.findIdx?_cons, decide_eq_true rfl]
      rfl
    | succ i =>
      rw [List.getElem?_cons_succ] at hi
      have hne : b ≠ a := by
        rintro rfl
        rw [List.filter_cons_of_pos ha, List.nodup_cons] at h
        exact h.1 (List.mem_filter.mpr ⟨List.mem_of_getElem? hi, ha⟩)
      have hrest : (l.filter p).Nodup := h.sublist ((List.sublist_cons_self b l).filter p)
      rw [List.findIdx?_cons, ih hrest hi]
      simp [hne]

variable {cp}

/-- What becomes of a byte that is decoded and encoded again. -/
def through (cp : Codepage) (ch : UInt8) : UInt8 :=
  if cp.decodeByte ch < 0x80 then (cp.decodeByte ch).toUInt8 else ch

theorem getElem?_characters {i : Nat} (hi : i < 128) : cp.characters[i]? = some (cp.characters.getD i 0) := by
  rw [List.getD_eq_getElem?_getD, List.getElem?_eq_getElem (by rw [cp.size]; exact hi)]
  rfl

theorem toNat_decodeByte_lt (h : cp.Regular) (ch : UInt8) : (cp.decodeByte ch).toNat < 0xD800 := by
  have hlt := ch.toNat_lt
  rw [decodeByte]
  split_ifs
  · rw [UInt8.toNat_toUInt32]
    omega
  · rw [UInt16.toNat_toUInt32]
    exact h.scalar _ (List.mem_of_getElem? (getElem?_characters (by omega)))

theorem scalar_decodeByte (h : cp.Regular) (ch : UInt8) : Scalar 0 (cp.decodeByte ch) := by
  have hlt := toNat_decodeByte_lt h ch
  generalize cp.decodeByte ch = u at hlt
  have hmask : u.toNat &&& 65535 ≤ u.toNat := Nat.and_le_left
  constructor
  · simp only [UInt32.le_iff_toNat_le, unicodeMax, UInt32.reduceToNat]
    omega
  · simp [isHighSurrogate, unicodeHighSurrogateMin, UInt32.le_iff_toNat_le]
    omega
  · simp [isLowSurrogate, unicodeLowSurrogateMin, UInt32.le_iff_toNat_le]
    omega
  · simp only [UInt32.lt_iff_toNat_lt, UInt32.toNat_and, UInt32.reduceToNat]
    omega
  · exact fun hflag => absurd hflag (by decide)

theorem encodeChar_decodeByte (h : cp.Regular) (ch : UInt8) : cp.encodeChar (cp.decodeByte ch) = [cp.through ch] := by
  rw [encodeChar, through]
  split_ifs with hascii
  · rfl
  · have hlt := ch.toNat_lt
    rw [UInt32.lt_iff_toNat_lt] at hascii
    have hupper : ¬ch < 0x80 := by
      intro hch
      rw [decodeByte, if_pos hch, UInt8.toNat_toUInt32] at hascii
      exact hascii (UInt8.lt_iff_toNat_lt.mp hch)
    have hge : 0x80 ≤ ch.toNat := UInt8.le_iff_toNat_le.mp (UInt8.not_lt.mp hupper)
    rw [decodeByte, if_neg hupper] at hascii ⊢
    have hentry : decide (0x80 ≤ cp.characters.getD (ch.toNat - 0x80) 0) = true := by
      rw [decide_eq_true_eq, UInt16.le_iff_toNat_le]
      rw [UInt16.toNat_toUInt32] at hascii
      exact Nat.not_lt.mp hascii
    have hfind := findIdx?_of_nodup h.nodup (getElem?_characters (i := ch.toNat - 0x80) (by omega)) hentry
    have hsame : ∀ u v : UInt16, decide (u.toUInt32 = v.toUInt32) = decide (u = v) := fun u v =>
      decide_eq_decide.mpr UInt16.toUInt32_inj
    simp only [hsame, hfind]
    rw [Nat.add_sub_cancel' hge, UInt8.ofNat_toNat]

theorem encode_decode_through (h : cp.Regular) (bytes : Bytes) : cp.encode (cp.decode bytes) = bytes.map cp.through := by
  have htext : ∀ u ∈ bytes.map cp.decodeByte, Scalar 0 u :=
    List.forall_mem_map.mpr fun ch _ => scalar_decodeByte h ch
  rw [encode, decode, Utf8Reader.eatAll_appendAll htext]
  induction bytes with
  | nil => rfl
  | cons ch bytes ih =>
    rw [List.map_cons, List.flatMap_cons, encodeChar_decodeByte h, ih (List.forall_mem_cons.mp htext).2]
    rfl

/-- The bytes of the upper half that have an ASCII character, or none. -/
def lossy (cp : Codepage) : Bytes :=
  (cp.characters.zipIdx.filter fun p => p.1 < 0x80).map fun p => UInt8.ofNat (0x80 + p.2)

theorem mem_lossy {ch : UInt8} :
    ch ∈ cp.lossy ↔ 0x80 ≤ ch.toNat ∧ cp.characters.getD (ch.toNat - 0x80) 0 < 0x80 := by
  rw [lossy, List.mem_map]
  constructor
  · rintro ⟨⟨u, i⟩, hp, rfl⟩
    rw [List.mem_filter, List.mem_zipIdx_iff_getElem?, decide_eq_true_eq] at hp
    obtain ⟨hi, -⟩ := List.getElem?_eq_some_iff.mp hp.1
    rw [cp.size] at hi
    have hvalue : (UInt8.ofNat (0x80 + i)).toNat = 0x80 + i := by
      rw [UInt8.toNat_ofNat']
      omega
    have hentry : cp.characters.getD i 0 = u := by rw [List.getD_eq_getElem?_getD, hp.1, Option.getD_some]
    rw [hvalue, Nat.add_sub_cancel_left, hentry]
    exact ⟨Nat.le_add_right _ _, hp.2⟩
  · rintro ⟨hge, hentry⟩
    have hlt := ch.toNat_lt
    refine ⟨(cp.characters.getD (ch.toNat - 0x80) 0, ch.toNat - 0x80), ?_, ?_⟩
    · rw [List.mem_filter, List.mem_zipIdx_iff_getElem?]
      exact ⟨getElem?_characters (by omega), decide_eq_true hentry⟩
    · rw [Nat.add_sub_cancel' hge, UInt8.ofNat_toNat]

theorem through_eq_iff (ch : UInt8) : cp.through ch = ch ↔ ch ∉ cp.lossy := by
  rw [mem_lossy, through, decodeByte]
  by_cases hch : ch < 0x80
  · have hnat := UInt8.lt_iff_toNat_lt.mp hch
    have hascii : ch.toUInt32 < 0x80 := UInt8.toUInt32_lt.mpr hch
    rw [if_pos hch, if_pos hascii, UInt8.toUInt8_toUInt32]
    exact iff_of_true rfl fun h => absurd h.1 (Nat.not_le.mpr hnat)
  · have hge : 0x80 ≤ ch.toNat := UInt8.le_iff_toNat_le.mp (UInt8.not_lt.mp hch)
    rw [if_neg hch]
    generalize cp.characters.getD (ch.toNat - 0x80) 0 = u
    have hu : u.toUInt32 < 0x80 ↔ u < 0x80 := UInt16.toUInt32_lt (b := 0x80)
    split_ifs with hascii
    · refine iff_of_false (fun heq => ?_) (not_not.mpr ⟨hge, hu.mp hascii⟩)
      have hvalue := congrArg UInt8.toNat heq
      rw [UInt32.lt_iff_toNat_lt, UInt16.toNat_toUInt32] at hascii
      rw [UInt32.toNat_toUInt8, UInt16.toNat_toUInt32] at hvalue
      simp only [UInt32.reduceToNat] at hascii
      omega
    · exact iff_of_true rfl fun h => hascii (hu.mpr h.2)

end Codepage

open Codepage

/-- **The round trip of the predefined codepages.** The lossy bytes become ASCII, and all others are preserved. -/
theorem encode_decode_predefined :
    (∀ cp ∈ predefined, ∀ bytes, cp.encode (cp.decode bytes) = bytes.map cp.through ∧
      (cp.encode (cp.decode bytes) = bytes ↔ ∀ ch ∈ bytes, ch ∉ cp.lossy)) ∧
    predefined.map lossy =
      [[0x81, 0x83, 0x88, 0x90, 0x98], [0x98], [0x81, 0x88, 0x8D, 0x8F, 0x90, 0x98, 0x9D], [], [], [], [], [], [], []] := by
  refine ⟨fun cp hcp bytes => ?_, by decide +kernel⟩
  have hback := encode_decode_through (regular_predefined cp hcp) bytes
  refine ⟨hback, ?_⟩
  have hfixed := List.map_inj_left (l := bytes) (f := cp.through) (g := id)
  rw [List.map_id] at hfixed
  rw [hback, hfixed]
  simp only [id, through_eq_iff]

theorem encode_decode_codepage437 :
    codepage437.encode (codepage437.decode [0x61, 0x80, 0xFF]) = [0x61, 0x80, 0xFF] :=
  ((encode_decode_predefined.1 codepage437 (by simp [predefined]) [0x61, 0x80, 0xFF]).2.mpr
    (List.all_iff_forall_prop.mp (by decide +kernel)))

/-- Codepage 1252 does not define the byte 0x81. -/
theorem codepage1252_undefined :
    codepage1252 ∈ predefined ∧ codepage1252.encode (codepage1252.decode [0x81]) ≠ [0x81] := by
  have hcp : codepage1252 ∈ predefined := by simp [predefined]
  refine ⟨hcp, ?_⟩
  rw [encode_decode_through (regular_predefined _ hcp)]
  decide

end Afl.Charset
