import Afl.Io.Archive.Scan
import Mathlib.Data.List.Induction

/-!
# Positions of headers

The readers of tar and ar files find a header after the data of the previous member. The specification adds the sizes
as they are written in the headers; the readers compute some of this in 32 bits.
-/

namespace Afl.Io.Archive

/-! ### Reading members -/

/-- A reader, with what its positions are made of. -/
structure Format (σ ε : Type) where
  readNextEntry : σ → Except FileError Bool × σ
  /-- Where the next header is. -/
  position : σ → Nat
  /-- The bytes there. -/
  header : σ → Bytes
  headerSize : Nat
  /-- The size that is written in a header. -/
  size : Bytes → Nat
  /-- The space that data of some size takes. -/
  padded : Nat → Nat
  index : σ → List ε
  start : ε → Nat
  length : ε → Nat

namespace Format

variable {σ ε : Type} (F : Format σ ε)

/-- Members read one after another, with their headers. -/
inductive Reads : σ → List Bytes → σ → Prop
  | nil (s : σ) : Reads s [] s
  | cons {s s₁ s' : σ} {hdrs : List Bytes} (h : F.readNextEntry s = (.ok true, s₁)) (rest : Reads s₁ hdrs s') :
    Reads s (F.header s :: hdrs) s'

def extent (hdrs : List Bytes) : Nat := (hdrs.map fun hdr => F.headerSize + F.padded (F.size hdr)).sum

/-- Each header follows the data of the member before, and each entry of the index describes the data of a member. -/
structure Positioned (s : σ) (hdrs : List Bytes) (s' : σ) : Prop where
  header : ∀ before mid, before <+: hdrs → F.Reads s before mid → F.position mid = F.position s + F.extent before
  data : ∀ e ∈ F.index s', e ∈ F.index s ∨ ∃ before hdr rest, hdrs = before ++ hdr :: rest ∧
    F.start e = F.position s + F.extent before + F.headerSize ∧ F.length e = F.size hdr

/-- A reader that is exact for headers with a property, and does not get far enough for others. -/
structure ExactFor (good : Bytes → Prop) : Prop where
  position : ∀ {s s'}, F.readNextEntry s = (.ok true, s') → good (F.header s) →
    F.position s' = F.position s + (F.headerSize + F.padded (F.size (F.header s)))
  short : ∀ {s s'}, F.readNextEntry s = (.ok true, s') → ¬good (F.header s) →
    F.position s' < F.position s + (F.headerSize + F.padded (F.size (F.header s)))
  data : ∀ {s s'}, F.readNextEntry s = (.ok true, s') → good (F.header s) → ∀ e ∈ F.index s', e ∈ F.index s ∨
    F.start e = F.position s + F.headerSize ∧ F.length e = F.size (F.header s)

variable {F} {good : Bytes → Prop} {s s' : σ} {hdrs : List Bytes}

theorem extent_cons (hdr : Bytes) (hdrs : List Bytes) :
    F.extent (hdr :: hdrs) = F.headerSize + F.padded (F.size hdr) + F.extent hdrs := by
  rw [extent, List.map_cons, List.sum_cons]
  rfl

theorem Reads.two (hfirst : (F.readNextEntry s).1 = .ok true)
    (hsecond : (F.readNextEntry (F.readNextEntry s).2).1 = .ok true) :
    F.Reads s [F.header s, F.header (F.readNextEntry s).2] (F.readNextEntry (F.readNextEntry s).2).2 :=
  .cons (Prod.ext hfirst rfl) (.cons (Prod.ext hsecond rfl) (.nil _))

theorem ExactFor.position_of_good (hF : F.ExactFor good) (h : F.Reads s hdrs s') (hgood : ∀ hdr ∈ hdrs, good hdr) :
    F.position s' = F.position s + F.extent hdrs := by
  induction h with
  | nil s => rfl
  | cons hread _ ih =>
    obtain ⟨hfirst, hgood⟩ := List.forall_mem_cons.mp hgood
    rw [ih hgood, hF.position hread hfirst, extent_cons, Nat.add_assoc]

theorem ExactFor.position_le (hF : F.ExactFor good) (h : F.Reads s hdrs s') :
    F.position s' ≤ F.position s + F.extent hdrs ∧
      (F.position s' = F.position s + F.extent hdrs → ∀ hdr ∈ hdrs, good hdr) := by
  induction h with
  | nil s => exact ⟨Nat.le_refl _, fun _ => List.forall_mem_nil _⟩
  | @cons s s₁ s' hdrs hread _ ih =>
    obtain ⟨hle, hall⟩ := ih
    rw [extent_cons]
    by_cases hfirst : good (F.header s)
    · have hposition := hF.position hread hfirst
      exact ⟨by omega, fun heq => List.forall_mem_cons.mpr ⟨hfirst, hall (by omega)⟩⟩
    · have hshort := hF.short hread hfirst
      exact ⟨by omega, fun heq => by omega⟩

theorem ExactFor.data_of_good (hF : F.ExactFor good) (h : F.Reads s hdrs s') (hgood : ∀ hdr ∈ hdrs, good hdr) :
    ∀ e ∈ F.index s', e ∈ F.index s ∨ ∃ before hdr rest, hdrs = before ++ hdr :: rest ∧
      F.start e = F.position s + F.extent before + F.headerSize ∧ F.length e = F.size hdr := by
  induction h with
  | nil s => exact fun e he => .inl he
  | @cons s s₁ s' hdrs hread _ ih =>
    obtain ⟨hfirst, hgood⟩ := List.forall_mem_cons.mp hgood
    intro e he
    obtain he | ⟨before, hdr, rest, rfl, hstart, hlength⟩ := ih hgood e he
    · obtain he | ⟨hstart, hlength⟩ := hF.data hread hfirst e he
      · exact .inl he
      · exact .inr ⟨[], _, hdrs, rfl, hstart, hlength⟩
    · refine .inr ⟨F.header s :: before, hdr, rest, rfl, ?_, hlength⟩
      rw [hstart, hF.position hread hfirst, extent_cons]
      omega

/-- **Rule for positions.** A reader is exact for the members it reads when all their headers are good, and only then. -/
theorem ExactFor.positioned_iff (hF : F.ExactFor good) (h : F.Reads s hdrs s') :
    F.Positioned s hdrs s' ↔ ∀ hdr ∈ hdrs, good hdr := by
  constructor
  · intro hpositioned
    exact (hF.position_le h).2 (hpositioned.header hdrs s' (List.prefix_refl hdrs) h)
  · intro hgood
    refine ⟨fun before mid hbefore hmid => ?_, hF.data_of_good h hgood⟩
    exact hF.position_of_good hmid fun hdr hhdr => hgood hdr (hbefore.subset hhdr)

end Format

/-! ### Numbers in headers -/

def digitsValue (base : Nat) (digits : Bytes) : Nat := digits.foldl (fun n c => base * n + (c.toNat - 48)) 0

theorem digitsValue_lt {base : Nat} {digits : Bytes} (h : ∀ c ∈ digits, c.toNat - 48 < base) :
    digitsValue base digits < base ^ digits.length := by
  induction digits using List.reverseRecOn with
  | nil => exact Nat.one_pos
  | append_singleton digits c ih =>
    have hdigits := ih fun c' hc' => h c' (List.mem_append_left _ hc')
    have hc := h c (List.mem_append_right _ (List.mem_singleton_self c))
    rw [digitsValue, List.foldl_append, List.length_append, List.length_singleton, Nat.pow_succ, Nat.mul_comm]
    change base * digitsValue base digits + (c.toNat - 48) < base * base ^ digits.length
    calc base * digitsValue base digits + (c.toNat - 48) < base * digitsValue base digits + base := by omega
      _ = base * (digitsValue base digits + 1) := by rw [Nat.mul_succ]
      _ ≤ base * base ^ digits.length := Nat.mul_le_mul_left _ hdigits

theorem digitsValue_concat (base : Nat) (digits : Bytes) (c : UInt8) :
    digitsValue base (digits ++ [c]) = base * digitsValue base digits + (c.toNat - 48) := by
  rw [digitsValue, List.foldl_append]
  rfl

/-! ### Tar files -/

namespace TarReader

def sizeDigits (hdr : Bytes) : Bytes := ((field hdr 124 12).dropWhile charIsSpace).takeWhile isOctalDigit

def format : Format TarReader TarEntry where
  readNextEntry := readNextEntry
  position r := r.nextEntryPosition.toNat
  header r := r.file.bytesAt r.nextEntryPosition headerSize
  headerSize := headerSize
  size hdr := digitsValue 8 (sizeDigits hdr)
  padded size := (size + 511) / 512 * 512
  index := index
  start e := e.start.toNat
  length e := e.length.toNat

theorem toNat_octal {digits : Bytes} (h : ∀ c ∈ digits, isOctalDigit c = true) :
    (digits.foldl (fun (result : UInt64) c => 8 * result + (c - 48).toUInt64) 0).toNat =
      digitsValue 8 digits % 2 ^ 64 := by
  induction digits using List.reverseRecOn with
  | nil => rfl
  | append_singleton digits c ih =>
    have hdigits := ih fun c' hc' => h c' (List.mem_append_left _ hc')
    have hc := h c (List.mem_append_right _ (List.mem_singleton_self c))
    have hvalue : (c - 48).toUInt64.toNat = c.toNat - 48 := by
      rw [isOctalDigit, Bool.and_eq_true, decide_eq_true_iff, UInt8.le_iff_toNat_le] at hc
      rw [UInt8.toNat_toUInt64, UInt8.toNat_sub_of_le _ _ (UInt8.le_iff_toNat_le.mpr hc.1)]
      rfl
    rw [List.foldl_append, List.foldl_cons, List.foldl_nil, digitsValue_concat, UInt64.toNat_add, UInt64.toNat_mul,
      hdigits, hvalue]
    change (8 * (digitsValue 8 digits % 2 ^ 64) % 2 ^ 64 + (c.toNat - 48)) % 2 ^ 64 = _
    omega

theorem size_lt (hdr : Bytes) : digitsValue 8 (sizeDigits hdr) < 2 ^ 36 := by
  have hdigit : ∀ c ∈ sizeDigits hdr, c.toNat - 48 < 8 := by
    intro c hc
    have hoctal := List.mem_takeWhile_imp hc
    rw [isOctalDigit, Bool.and_eq_true, decide_eq_true_iff, decide_eq_true_iff, UInt8.le_iff_toNat_le,
      UInt8.le_iff_toNat_le] at hoctal
    have hle : c.toNat ≤ 55 := hoctal.2
    omega
  have hlength : (sizeDigits hdr).length ≤ 12 :=
    calc (sizeDigits hdr).length ≤ ((field hdr 124 12).dropWhile charIsSpace).length :=
        (List.takeWhile_sublist _).length_le
      _ ≤ (field hdr 124 12).length := (List.dropWhile_sublist _).length_le
      _ ≤ 12 := List.length_take_le _ _
  calc digitsValue 8 (sizeDigits hdr) < 8 ^ (sizeDigits hdr).length := digitsValue_lt hdigit
    _ ≤ 8 ^ 12 := Nat.pow_le_pow_right (by decide) hlength
    _ = 2 ^ 36 := by decide

theorem toNat_size {hdr : Bytes} {size : UInt64} (h : getNumber (field hdr 124 12) = some size) :
    size.toNat = digitsValue 8 (sizeDigits hdr) := by
  have hsize := size_lt hdr
  rw [getNumber] at h
  split_ifs at h
  cases h
  rw [toNat_octal fun c hc => List.mem_takeWhile_imp hc]
  exact Nat.mod_eq_of_lt (by rw [sizeDigits] at hsize; omega)

theorem and_blocks (n : Nat) : n &&& 0xFFFFFE00 = n % 2 ^ 32 / 512 * 512 := by
  have hmask : (0xFFFFFE00 : Nat) = (2 ^ 23 - 1) <<< 9 := by decide
  have hblocks : n % 2 ^ 32 / 512 * 512 = (n % 2 ^ 32) >>> 9 <<< 9 := by
    rw [Nat.shiftRight_eq_div_pow, Nat.shiftLeft_eq]
  rw [hmask, hblocks]
  apply Nat.eq_of_testBit_eq
  intro i
  rw [Nat.testBit_and, Nat.testBit_shiftLeft, Nat.testBit_shiftLeft, Nat.testBit_two_pow_sub_one,
    Nat.testBit_shiftRight, Nat.testBit_mod_two_pow]
  by_cases h : 9 ≤ i
  · rw [show 9 + (i - 9) = i by omega]
    grind
  · grind

theorem toNat_nextPosition {f : File} {pos : UInt64} (h : (f.bytesAt pos headerSize).length = headerSize)
    (size : UInt64) (hsize : size.toNat < 2 ^ 36) :
    (nextPosition (pos + UInt64.ofNat headerSize) size).toNat =
      pos.toNat + headerSize + (size.toNat + 511) % 2 ^ 32 / 512 * 512 := by
  obtain ⟨hinside, hstart, -⟩ := nextPosition_le h size
  have hmask : (~~~(511 : UInt32)).toUInt64.toNat = 0xFFFFFE00 := by decide
  have hsum : (size + 511).toNat = size.toNat + 511 := by
    rw [UInt64.toNat_add]
    exact Nat.mod_eq_of_lt (by change size.toNat + 511 < 2 ^ 64; omega)
  have hpadding : ((size + 511) &&& (~~~(511 : UInt32)).toUInt64).toNat =
      (size.toNat + 511) % 2 ^ 32 / 512 * 512 := by
    rw [UInt64.toNat_and, hmask, hsum, and_blocks]
  rw [nextPosition, File.toNat_add (f := f) (by omega) (by omega), hstart, hpadding]

theorem readNextEntry_positions {r r' : TarReader} (h : readNextEntry r = (.ok true, r')) :
    format.position r' = format.position r + headerSize + (format.size (format.header r) + 511) % 2 ^ 32 / 512 * 512 ∧
      ∀ e ∈ r'.index, e ∈ r.index ∨
        format.start e = format.position r + headerSize ∧ format.length e = format.size (format.header r) := by
  obtain ⟨-, hlength, -, entry, hentry, rfl⟩ := readNextEntry_true h
  obtain ⟨-, hstart, -⟩ := nextPosition_le hlength entry.length
  simp only [parseHeader, Option.bind_eq_bind, Option.bind_eq_some_iff] at hentry
  obtain ⟨size, hsize, mode, -, time, -, hpure⟩ := hentry
  obtain rfl := Option.some.inj hpure
  have hvalue := toNat_size hsize
  have hnext := toNat_nextPosition hlength size (by rw [hvalue]; exact size_lt _)
  rw [hvalue] at hnext
  refine ⟨hnext, fun e he => ?_⟩
  simp only [addEntry] at he
  split_ifs at he
  · rw [List.mem_append, List.mem_singleton] at he
    obtain he | rfl := he
    · exact .inl he
    · exact .inr ⟨hstart, hvalue⟩
  · exact .inl he

theorem exactFor : format.ExactFor fun hdr => format.size hdr + 511 < 2 ^ 32 where
  position h hgood := by
    rw [(readNextEntry_positions h).1, Nat.mod_eq_of_lt hgood, Nat.add_assoc]
    rfl
  short {r _} h hbad := by
    rw [(readNextEntry_positions h).1]
    change _ < format.position r + (headerSize + (format.size (format.header r) + 511) / 512 * 512)
    omega
  data h _ := (readNextEntry_positions h).2

/-- **The headers of a tar file are found** after the data of the members before, which is padded to blocks, as long as
each of these takes less than 4 GiB; and the entries of the index describe the data of members. The mask for padding
has 32 bits, so of a larger size only the remainder counts. -/
theorem tar_positions_iff {r r' : TarReader} {hdrs : List Bytes} (h : format.Reads r hdrs r') :
    format.Positioned r hdrs r' ↔ ∀ hdr ∈ hdrs, format.size hdr + 511 < 2 ^ 32 :=
  exactFor.positioned_iff h

def sampleHeader (size : Bytes) : Bytes := lit "a" ++ List.replicate 123 0 ++ size ++ List.replicate 377 0

theorem length_sampleHeader {size : Bytes} (h : size.length = 11) : (sampleHeader size).length = 512 := by
  rw [sampleHeader, List.length_append, List.length_append, List.length_append, List.length_replicate,
    List.length_replicate, h]
  rfl

def sampleReader (size : Bytes) (h : size.length = 11) : TarReader :=
  .new ⟨[], sampleHeader size, true, 0, by rw [length_sampleHeader h]; decide⟩ false

/-- A reader of a file with a member of five bytes, and the header of another one behind the padding. -/
def fiveReader : TarReader :=
  .new ⟨[], sampleHeader (lit "00000000005") ++ (lit "12345" ++ List.replicate 507 0) ++
    sampleHeader (lit "00000000003"), true, 0, by decide +kernel⟩ false

set_option maxRecDepth 8000 in
theorem tar_positions_five :
    ∃ r r', fiveReader.readNextEntry = (.ok true, r) ∧ r.readNextEntry = (.ok true, r') ∧
      format.Positioned fiveReader [sampleHeader (lit "00000000005"), sampleHeader (lit "00000000003")] r' := by
  have hfirst : fiveReader.readNextEntry.1 = .ok true := by decide +kernel
  have hsecond : fiveReader.readNextEntry.2.readNextEntry.1 = .ok true := by decide +kernel
  have hheaders : [format.header fiveReader, format.header fiveReader.readNextEntry.2] =
      [sampleHeader (lit "00000000005"), sampleHeader (lit "00000000003")] := by decide +kernel
  have hreads : format.Reads fiveReader [format.header fiveReader, format.header fiveReader.readNextEntry.2]
      fiveReader.readNextEntry.2.readNextEntry.2 := .two hfirst hsecond
  rw [hheaders] at hreads
  exact ⟨_, _, Prod.ext hfirst rfl, Prod.ext hsecond rfl, (tar_positions_iff hreads).mpr (by decide)⟩

set_option maxRecDepth 8000 in
/-- A member of 4 GiB. -/
theorem tar_positions_large :
    ∃ r', (sampleReader (lit "40000000000") (by decide)).readNextEntry = (.ok true, r') ∧
      ¬format.Positioned (sampleReader (lit "40000000000") (by decide)) [sampleHeader (lit "40000000000")] r' := by
  refine ⟨_, rfl, fun hpositioned => ?_⟩
  have hgood := (exactFor.positioned_iff (.cons rfl (.nil _))).mp hpositioned
  exact absurd hgood (by decide)

end TarReader

/-! ### Ar files -/

namespace ArReader

def sizeDigits (hdr : Bytes) : Bytes := (field hdr 48 10).takeWhile fun c => 48 ≤ c ∧ c.toNat < 48 + (10 : UInt32).toNat

def format : Format ArReader ArEntry where
  readNextEntry := readNextEntry
  position r := r.nextEntryPosition.toNat
  header r := r.file.bytesAt r.nextEntryPosition headerSize
  headerSize := headerSize
  size hdr := digitsValue 10 (sizeDigits hdr)
  padded size := size + size % 2
  index := index
  start e := e.start.toNat
  length e := e.length.toNat

theorem toNat_parseNumber (m : Bytes) (base : UInt32) :
    (parseNumber m base).toNat =
      digitsValue base.toNat (m.takeWhile fun c => 48 ≤ c ∧ c.toNat < 48 + base.toNat) % 2 ^ 32 := by
  rw [parseNumber]
  have hdigit : ∀ c ∈ m.takeWhile fun c => 48 ≤ c ∧ c.toNat < 48 + base.toNat, (48 : UInt8) ≤ c := by
    intro c hc
    have hmember := List.mem_takeWhile_imp hc
    rw [decide_eq_true_iff] at hmember
    exact hmember.1
  generalize m.takeWhile _ = digits at hdigit ⊢
  induction digits using List.reverseRecOn with
  | nil => rfl
  | append_singleton digits c ih =>
    have hdigits := ih fun c' hc' => hdigit c' (List.mem_append_left _ hc')
    have hc := hdigit c (List.mem_append_right _ (List.mem_singleton_self c))
    have hvalue : (c - 48).toUInt32.toNat = c.toNat - 48 := by
      rw [UInt8.toNat_toUInt32, UInt8.toNat_sub_of_le _ _ hc]
      rfl
    rw [List.foldl_append, List.foldl_cons, List.foldl_nil, digitsValue_concat, UInt32.toNat_add, UInt32.toNat_mul,
      hdigits, hvalue, Nat.mod_add_mod, Nat.add_mod, Nat.mul_mod_mod, ← Nat.add_mod]

theorem toNat_size (hdr : Bytes) : (parseNumber (field hdr 48 10) 10).toNat = format.size hdr % 2 ^ 32 :=
  toNat_parseNumber _ _

theorem toNat_nextPosition {f : File} {pos : UInt64} (h : (f.bytesAt pos headerSize).length = headerSize)
    (size : UInt32) :
    (pos + UInt64.ofNat headerSize).toNat = pos.toNat + headerSize ∧
      (nextPosition (pos + UInt64.ofNat headerSize) size).toNat =
        pos.toNat + headerSize + (size.toNat + size.toNat % 2) := by
  have hinside := File.inside_of_length (by decide) h
  have hheader : (UInt64.ofNat headerSize).toNat = headerSize := by decide
  have hsize := size.toNat_lt
  have hodd : (size &&& 1).toUInt64.toNat = size.toNat % 2 := by
    rw [UInt32.toNat_toUInt64, UInt32.toNat_and]
    exact Nat.and_one_is_mod _
  have hstart : (pos + UInt64.ofNat headerSize).toNat = pos.toNat + headerSize := by
    rw [File.toNat_add (f := f) (by omega) (by decide), hheader]
  have hpadded : (size.toUInt64 + (size &&& 1).toUInt64).toNat = size.toNat + size.toNat % 2 := by
    rw [UInt64.toNat_add, UInt32.toNat_toUInt64, hodd]
    omega
  refine ⟨hstart, ?_⟩
  rw [nextPosition, UInt64.add_assoc, File.toNat_add (f := f) (by omega) (by omega), hstart, hpadded]

theorem takeMember_index {r r' : ArReader} {hdr : Bytes} {thisEntryPos : UInt64} {size : UInt32}
    {result : Except FileError Bool} (h : takeMember r hdr thisEntryPos size = (result, r')) :
    ∀ e ∈ r'.index, e ∈ r.index ∨ e.start = thisEntryPos ∧ e.length = size.toUInt64 := by
  intro e he
  simp only [takeMember] at h
  split at h
  · cases h
    exact .inl he
  · split_ifs at h
    · cases h
      exact .inl he
    · split at h <;> · cases h
                       exact .inl he
    · cases h
      exact .inl he
  · split at h
    · cases h
      exact .inl he
    · cases h
      split_ifs at he
      · rw [List.mem_append, List.mem_singleton] at he
        obtain he | rfl := he
        · exact .inl he
        · exact .inr ⟨rfl, rfl⟩
      · exact .inl he

theorem readNextEntry_index {r r' : ArReader} (h : readNextEntry r = (.ok true, r')) :
    ∀ e ∈ r'.index, e ∈ r.index ∨ e.start = r.nextEntryPosition + UInt64.ofNat headerSize ∧
      e.length = (parseNumber (field (format.header r) 48 10) 10).toUInt64 := by
  rcases hend : r.atEnd
  · rcases r.file.skipTo_cases r.nextEntryPosition with hskip | ⟨e, p, hskip⟩
    · rw [readNextEntry_eq hend hskip] at h
      simp only at h
      split_ifs at h with hmember
      · have hindex := takeMember_index h
        simp only [hmember.1] at hindex
        exact hindex
      · cases h
    · rw [readNextEntry_error hend hskip] at h
      cases h
  · rw [readNextEntry, hend] at h
    cases h

theorem exactFor : format.ExactFor fun hdr => format.size hdr < 2 ^ 32 := by
  have hposition : ∀ {r r' : ArReader}, readNextEntry r = (.ok true, r') → format.position r' =
      format.position r + headerSize +
        (format.size (format.header r) % 2 ^ 32 + format.size (format.header r) % 2 ^ 32 % 2) := by
    intro r r' h
    obtain ⟨hlength, -, hnext⟩ := readNextEntry_true h
    rw [← toNat_size]
    exact (congrArg UInt64.toNat hnext).trans (toNat_nextPosition hlength _).2
  refine ⟨fun h hgood => ?_, fun {r r'} h hbad => ?_, fun {r r'} h hgood e he => ?_⟩
  · rw [hposition h, Nat.mod_eq_of_lt hgood, Nat.add_assoc]
    rfl
  · rw [hposition h]
    change _ < format.position r + (headerSize + (format.size (format.header r) + format.size (format.header r) % 2))
    omega
  · obtain he | ⟨hstart, hlength⟩ := readNextEntry_index h e he
    · exact .inl he
    · refine .inr ⟨?_, ?_⟩
      · change e.start.toNat = _
        rw [hstart, (toNat_nextPosition (readNextEntry_true h).1 0).1]
        rfl
      · change e.length.toNat = _
        rw [hlength, UInt32.toNat_toUInt64, toNat_size, Nat.mod_eq_of_lt hgood]

/-- **The headers of an ar file are found** after the data of the members before, which is padded to an even size, and
the entries of the index describe the data of members, as long as each of these takes less than 4 GiB. The sizes have up
to ten digits, and are read into 32 bits. -/
theorem ar_positions_iff {r r' : ArReader} {hdrs : List Bytes} (h : format.Reads r hdrs r') :
    format.Positioned r hdrs r' ↔ ∀ hdr ∈ hdrs, format.size hdr < 2 ^ 32 :=
  exactFor.positioned_iff h

/-- A header with a size of ten digits, and nothing else but a name. -/
def sampleHeader (size : Bytes) : Bytes := lit "a/" ++ List.replicate 46 32 ++ size ++ memberMagic

def sampleReader (size : Bytes) (h : (sampleHeader size).length < 0x8000000000000000) : ArReader :=
  ⟨⟨[], sampleHeader size, true, 0, h⟩, 0, false, [], []⟩

/-- A reader of a file with a member of five bytes, and the header of another one behind the padding. -/
def fiveReader : ArReader :=
  ⟨⟨[], sampleHeader (lit "5         ") ++ lit "12345\n" ++ sampleHeader (lit "3         "), true, 0,
    by decide +kernel⟩, 0, false, [], []⟩

theorem ar_positions_five :
    ∃ r r', fiveReader.readNextEntry = (.ok true, r) ∧ r.readNextEntry = (.ok true, r') ∧
      format.Positioned fiveReader [sampleHeader (lit "5         "), sampleHeader (lit "3         ")] r' := by
  have hfirst : fiveReader.readNextEntry.1 = .ok true := by decide +kernel
  have hsecond : fiveReader.readNextEntry.2.readNextEntry.1 = .ok true := by decide +kernel
  have hheaders : [format.header fiveReader, format.header fiveReader.readNextEntry.2] =
      [sampleHeader (lit "5         "), sampleHeader (lit "3         ")] := by decide +kernel
  have hreads : format.Reads fiveReader [format.header fiveReader, format.header fiveReader.readNextEntry.2]
      fiveReader.readNextEntry.2.readNextEntry.2 := .two hfirst hsecond
  rw [hheaders] at hreads
  exact ⟨_, _, Prod.ext hfirst rfl, Prod.ext hsecond rfl, (ar_positions_iff hreads).mpr (by decide)⟩

/-- A member of 4 GiB. -/
theorem ar_positions_large :
    ∃ r', (sampleReader (lit "4294967296") (by decide)).readNextEntry = (.ok true, r') ∧
      ¬format.Positioned (sampleReader (lit "4294967296") (by decide)) [sampleHeader (lit "4294967296")] r' := by
  refine ⟨_, rfl, fun hpositioned => ?_⟩
  have hgood := (exactFor.positioned_iff (.cons rfl (.nil _))).mp hpositioned
  exact absurd hgood (by decide)

end ArReader

end Afl.Io.Archive
