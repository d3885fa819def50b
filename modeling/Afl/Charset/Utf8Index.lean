import Afl.Charset.Utf8Reader
import Afl.Lib.Segments

/-!
# Positions in UTF-8 texts

`Utf8::length`, `charAt`, `substr`, `byteToCharPos` and `charToBytePos`. Each of them reads the text with a loop of its
own; the specification is the list of runes that `Utf8Reader` finds, with the bytes that each is read from.
-/

namespace Afl.Charset

namespace Utf8Reader

/-- `Utf8Reader::count`, with the number so far. -/
def countLoop (flags : UInt32) : Bytes → Nat → Nat
  | [], n => n
  | ch :: data, n => countLoop flags (eat flags (ch :: data)).2 (n + 1)
termination_by data => data.length
decreasing_by exact length_eat_lt flags (List.cons_ne_nil ch data)

def count (flags : UInt32) (data : Bytes) : Nat := countLoop flags data 0

/-- `while (hasMore() && index != 0) { eat(); --index; }`: the index and the remainder. -/
def skip (flags : UInt32) : Bytes → Nat → Nat × Bytes
  | data, 0 => (0, data)
  | [], index => (index, [])
  | ch :: data, index + 1 => skip flags (eat flags (ch :: data)).2 index

/-- `while (charPos != 0) { eat(); --charPos; }`. -/
def eatTimes (flags : UInt32) (data : Bytes) : Nat → Bytes
  | 0 => data
  | charPos + 1 => eatTimes flags (eat flags data).2 charPos

/-- `while (total - getRemainder().size() < bytePos) { eat(); ++result; }`; `none` is a loop that does not end, as nothing
is eaten from an empty text. -/
def reachLoop (flags : UInt32) (total bytePos : Nat) : Bytes → Nat → Option Nat
  | [], result => if total < bytePos then none else some result
  | ch :: data, result =>
    if total - (ch :: data).length < bytePos then
      reachLoop flags total bytePos (eat flags (ch :: data)).2 (result + 1)
    else some result
termination_by data => data.length
decreasing_by exact length_eat_lt flags (List.cons_ne_nil ch data)

end Utf8Reader

namespace Utf8

open Utf8Reader

def length (flags : UInt32) (text : Bytes) : Nat := count flags text

def substrMemory (flags : UInt32) (text : Bytes) (index count : Nat) : Bytes :=
  let tail := (skip flags text index).2
  if tail.length ≤ count then tail else tail.take (tail.length - (skip flags tail count).2.length)

def substr (flags : UInt32) (text : Bytes) (index count : Nat) : Bytes := substrMemory flags text index count

def charAt (flags : UInt32) (text : Bytes) (index : Nat) : Unichar :=
  let (index, data) := skip flags text index
  if index = 0 ∧ data ≠ [] then (eat flags data).1 else 0

def byteToCharPos (flags : UInt32) (text : Bytes) (bytePos : Nat) : Option Nat :=
  if text.length ≤ bytePos then some (count flags text) else reachLoop flags text.length bytePos text 0

def charToBytePos (flags : UInt32) (text : Bytes) (charPos : Nat) : Nat :=
  if text.length ≤ charPos then text.length else text.length - (eatTimes flags text charPos).length

end Utf8

/-! ### The loops -/

namespace Utf8Reader

theorem eat_suffix (flags : UInt32) (data : Bytes) : (eat flags data).2 <:+ data := by
  simp only [eat]
  split_ifs
  · exact List.suffix_refl _
  all_goals exact List.drop_suffix _ _

def reader (flags : UInt32) : Segmenting UInt8 Unichar := ⟨eat flags, eat_suffix flags, length_eat_lt flags⟩

variable (flags : UInt32) (s : Bytes)

theorem eatAll_eq : eatAll flags s = ((reader flags).segments s).map Prod.fst := by
  induction s using (reader flags).induction with
  | hnil => rw [eatAll, Segmenting.segments_nil, List.map_nil]
  | hcons s hs ih =>
    obtain ⟨ch, s, rfl⟩ := List.exists_cons_of_ne_nil hs
    rw [eatAll, Segmenting.segments_cons _ hs, List.map_cons, ← ih]
    rfl

theorem length_eatAll : (eatAll flags s).length = ((reader flags).segments s).length := by
  rw [eatAll_eq, List.length_map]

theorem countLoop_eq (n : Nat) : countLoop flags s n = n + ((reader flags).segments s).length := by
  induction s using (reader flags).induction generalizing n with
  | hnil => rw [countLoop, Segmenting.segments_nil, List.length_nil, Nat.add_zero]
  | hcons s hs ih =>
    obtain ⟨ch, s, rfl⟩ := List.exists_cons_of_ne_nil hs
    rw [countLoop, Segmenting.segments_cons _ hs, List.length_cons, ← Nat.add_assoc, Nat.add_right_comm]
    exact ih (n + 1)

theorem eatTimes_eq (n : Nat) : eatTimes flags s n = (reader flags).rest s n := by
  induction n generalizing s with
  | zero => rw [eatTimes, Segmenting.rest_zero]
  | succ n ih =>
    rw [eatTimes, ih]
    by_cases hs : s = []
    · rw [hs, Segmenting.rest_nil]
      exact Segmenting.rest_nil _ _
    · rw [Segmenting.rest_succ _ hs]
      rfl

theorem skip_eq (n : Nat) :
    skip flags s n = (n - ((reader flags).segments s).length, (reader flags).rest s n) := by
  induction n generalizing s with
  | zero => rw [skip, Nat.zero_sub, Segmenting.rest_zero]
  | succ n ih =>
    rcases s with _ | ⟨ch, s⟩
    · rw [skip, Segmenting.segments_nil, Segmenting.rest_nil]
      · rfl
      · exact Nat.succ_ne_zero n
    · have hs : ch :: s ≠ [] := List.cons_ne_nil _ _
      rw [skip, ih, Segmenting.rest_succ _ hs, Segmenting.segments_cons _ hs, List.length_cons, Nat.add_sub_add_right]
      rfl

/-- The number of items that begin before a position. -/
structure Reaches (p c : Nat) : Prop where
  le : c ≤ ((reader flags).segments s).length
  lt_iff : ∀ i, i < c ↔ i < ((reader flags).segments s).length ∧ (reader flags).offset s i < p

variable {flags s}

theorem Reaches.offset {i : Nat} (hi : i ≤ ((reader flags).segments s).length) :
    Reaches flags s ((reader flags).offset s i) i := by
  refine ⟨hi, fun j => ⟨fun hj => ?_, fun hj => ?_⟩⟩
  · exact ⟨by omega, (reader flags).offset_lt hj hi⟩
  · exact ((reader flags).offset_lt_iff hj.1.le hi).mp hj.2

theorem Reaches.mono {p q a b : Nat} (hpq : p ≤ q) (ha : Reaches flags s p a) (hb : Reaches flags s q b) : a ≤ b := by
  by_contra hlt
  obtain ⟨hinside, hoffset⟩ := (ha.lt_iff b).mp (Nat.not_le.mp hlt)
  exact Nat.lt_irrefl b ((hb.lt_iff b).mpr ⟨hinside, Nat.lt_of_lt_of_le hoffset hpq⟩)

theorem Reaches.unique {p a b : Nat} (ha : Reaches flags s p a) (hb : Reaches flags s p b) : a = b :=
  Nat.le_antisymm (ha.mono (Nat.le_refl p) hb) (hb.mono (Nat.le_refl p) ha)

theorem reachLoop_eq {p : Nat} (hp : p ≤ s.length) {i : Nat} (hi : i ≤ ((reader flags).segments s).length)
    (hbefore : ∀ j < i, (reader flags).offset s j < p) :
    ∃ c, reachLoop flags s.length p ((reader flags).rest s i) i = some c ∧ Reaches flags s p c := by
  have htotal := (reader flags).offset_eq s i
  rcases hrest : (reader flags).rest s i with _ | ⟨ch, data⟩
  · -- the end of the text
    have hend := (reader flags).rest_eq_nil_iff.mp hrest
    refine ⟨i, by rw [reachLoop, if_neg (by omega)], hi, fun j => ⟨fun hj => ⟨by omega, hbefore j hj⟩, fun hj => ?_⟩⟩
    omega
  · have hne : (reader flags).rest s i ≠ [] := by rw [hrest]; exact List.cons_ne_nil _ _
    have hinside : i < ((reader flags).segments s).length := by
      by_contra hle
      exact hne ((reader flags).rest_eq_nil_iff.mpr (Nat.not_lt.mp hle))
    rw [hrest] at htotal
    rw [reachLoop, ← htotal]
    split_ifs with hp'
    · have hnext : (eat flags (ch :: data)).2 = (reader flags).rest s (i + 1) := by
        rw [← (reader flags).rest_rest, Segmenting.rest_succ _ hne, Segmenting.rest_zero, hrest]
        rfl
      rw [hnext]
      refine reachLoop_eq hp hinside fun j hj => ?_
      obtain hj | rfl := Nat.lt_succ_iff_lt_or_eq.mp hj
      · exact hbefore j hj
      · exact hp'
    · refine ⟨i, rfl, hi, fun j => ⟨fun hj => ⟨by omega, hbefore j hj⟩, fun hj => ?_⟩⟩
      by_contra hle
      rcases Nat.eq_or_lt_of_le (Nat.not_lt.mp hle) with rfl | hlt
      · exact hp' hj.2
      · exact hp' (Nat.lt_trans ((reader flags).offset_lt hlt hj.1.le) hj.2)
termination_by ((reader flags).segments s).length - i

end Utf8Reader

namespace Utf8

open Utf8Reader

variable (flags : UInt32) (s : Bytes)

theorem byteToCharPos_eq (p : Nat) : ∃ c, byteToCharPos flags s p = some c ∧ Reaches flags s p c := by
  rw [byteToCharPos]
  split_ifs with hp
  · refine ⟨_, rfl, ?_⟩
    rw [count, countLoop_eq, Nat.zero_add]
    refine ⟨Nat.le_refl _, fun i => ⟨fun hi => ⟨hi, ?_⟩, And.left⟩⟩
    have hoffset := (reader flags).offset_lt hi (Nat.le_refl _)
    rw [(reader flags).offset_of_le (Nat.le_refl _)] at hoffset
    exact Nat.lt_of_lt_of_le hoffset hp
  · have hloop : ∃ c, reachLoop flags s.length p ((reader flags).rest s 0) 0 = some c ∧ Reaches flags s p c :=
      reachLoop_eq (Nat.not_le.mp hp).le (Nat.zero_le _) fun j hj => absurd hj (Nat.not_lt_zero j)
    rwa [Segmenting.rest_zero] at hloop

theorem charToBytePos_eq (i : Nat) : charToBytePos flags s i = (reader flags).offset s i := by
  rw [charToBytePos]
  split_ifs with hi
  · rw [(reader flags).offset_of_le (((reader flags).length_segments_le s).trans hi)]
  · rw [eatTimes_eq, (reader flags).offset_eq]

theorem charAt_eq (i : Nat) : charAt flags s i = (eatAll flags s)[i]?.getD 0 := by
  rw [charAt, skip_eq, eatAll_eq, List.getElem?_map]
  dsimp only
  by_cases hi : i < ((reader flags).segments s).length
  · have hne : (reader flags).rest s i ≠ [] := fun hrest =>
      Nat.not_le.mpr hi ((reader flags).rest_eq_nil_iff.mp hrest)
    have hhead : ((((reader flags).segments s).drop i)[0]?).map Prod.fst =
        some (eat flags ((reader flags).rest s i)).1 := by
      rw [← (reader flags).segments_rest, Segmenting.segments_cons _ hne]
      rfl
    rw [List.getElem?_drop, Nat.add_zero] at hhead
    rw [if_pos ⟨Nat.sub_eq_zero_of_le hi.le, hne⟩, hhead]
    rfl
  · have hrest := (reader flags).rest_eq_nil_iff.mpr (Nat.not_lt.mp hi)
    rw [if_neg (fun h => h.2 hrest), List.getElem?_eq_none (Nat.not_lt.mp hi)]
    rfl

theorem substr_eq (i n : Nat) :
    substr flags s i n = (((((reader flags).segments s).drop i).take n).map Prod.snd).flatten := by
  have hall : (((reader flags).segments ((reader flags).rest s i)).map Prod.snd).flatten = (reader flags).rest s i :=
    (reader flags).rest_zero _
  rw [substr, substrMemory, skip_eq]
  dsimp only
  rw [← (reader flags).segments_rest]
  generalize (reader flags).rest s i = tail at hall
  split_ifs with hn
  · rw [List.take_of_length_le (((reader flags).length_segments_le tail).trans hn), hall]
  · rw [skip_eq, ← (reader flags).offset_eq, (reader flags).take_offset]

/-- **The index functions agree with decoding.** The text is divided into the bytes that each of its runes is read from,
and the functions count, select and slice these, whatever the flags and the text are. The two conversions of positions
are inverse to each other where a rune begins or the text ends, and `byteToCharPos` is monotone; its loop ends for every
position. -/
theorem index_functions (flags : UInt32) (s : Bytes) :
    let segments := (reader flags).segments s
    let boundary := fun i => ((segments.take i).map Prod.snd).flatten.length
    (segments.map Prod.fst = eatAll flags s ∧ (segments.map Prod.snd).flatten = s) ∧
      length flags s = (eatAll flags s).length ∧
      (∀ i, charAt flags s i = (eatAll flags s)[i]?.getD 0) ∧
      (∀ i n, substr flags s i n = (((segments.drop i).take n).map Prod.snd).flatten) ∧
      (∀ i, charToBytePos flags s i = boundary i) ∧
      (∀ i ≤ (eatAll flags s).length, byteToCharPos flags s (charToBytePos flags s i) = some i) ∧
      (∀ p i, p = boundary i → ∃ c, byteToCharPos flags s p = some c ∧ charToBytePos flags s c = p) ∧
      ∀ p q, p ≤ q → ∃ a b, byteToCharPos flags s p = some a ∧ byteToCharPos flags s q = some b ∧ a ≤ b := by
  have hinverse : ∀ i ≤ (eatAll flags s).length, byteToCharPos flags s (charToBytePos flags s i) = some i := by
    intro i hi
    rw [length_eatAll] at hi
    rw [charToBytePos_eq]
    obtain ⟨c, hc, hreaches⟩ := byteToCharPos_eq flags s ((reader flags).offset s i)
    rw [hc, hreaches.unique (.offset hi)]
  refine ⟨⟨(eatAll_eq flags s).symm, (reader flags).rest_zero s⟩, ?_, charAt_eq flags s, substr_eq flags s,
    charToBytePos_eq flags s, hinverse, fun p i hp => ?_, fun p q hpq => ?_⟩
  · rw [length, count, countLoop_eq, Nat.zero_add, length_eatAll]
  · -- past the last rune, the boundary is the end of the text
    have hp' : p = charToBytePos flags s (min i (eatAll flags s).length) := by
      rw [charToBytePos_eq, hp, length_eatAll]
      rcases Nat.le_total i ((reader flags).segments s).length with hi | hi
      · rw [Nat.min_eq_left hi, Segmenting.offset]
      · rw [Nat.min_eq_right hi, (reader flags).offset_of_le (Nat.le_refl _)]
        exact (reader flags).offset_of_le hi
    exact ⟨_, by rw [hp']; exact hinverse _ (Nat.min_le_right _ _), hp'.symm⟩
  · obtain ⟨a, ha, hreachesA⟩ := byteToCharPos_eq flags s p
    obtain ⟨b, hb, hreachesB⟩ := byteToCharPos_eq flags s q
    exact ⟨a, b, ha, hb, hreachesA.mono hpq hreachesB⟩

end Utf8

end Afl.Charset
