import Afl.Net.Http.Packets

/-!
# Numbers in a response

What `ClientResponse` makes of the numbers in a `Content-Range` and of the status code, of any number of digits.
-/

namespace Afl.Net.Http

open Pieces

/-! ### Content-Range -/

/-- A range as it is written: `bytes first-last/total`. -/
structure RangeText where
  before : Bytes
  between : Bytes
  first : Bytes
  last : Bytes
  total : Bytes
  behind : Bytes
  before_space : ∀ c ∈ before, charIsSpace c = true
  between_space : ∀ c ∈ between, charIsSpace c = true
  behind_space : ∀ c ∈ behind, charIsSpace c = true
  between_ne : between ≠ []
  first_digits : IsDigits first
  last_digits : IsDigits last
  total_digits : IsDigits total

namespace RangeText

def encodeNumbers (t : RangeText) : Bytes := t.first ++ 45 :: (t.last ++ 47 :: (t.total ++ t.behind))

def encode (t : RangeText) : Bytes := t.before ++ (lit "bytes" ++ (t.between ++ t.encodeNumbers))

theorem digit_not_space {c : UInt8} (hc : charIsDigit c = true) : charIsSpace c = false := by
  rw [charIsDigit_iff] at hc
  rw [Bool.eq_false_iff]
  intro hspace
  simp only [charIsSpace, Bool.or_eq_true, beq_iff_eq] at hspace
  rcases hspace with ((rfl | rfl) | rfl) | rfl
  all_goals revert hc; decide

variable (t : RangeText)

theorem bytes_stop : ∀ c ∈ (lit "bytes" ++ (t.between ++ t.encodeNumbers)).head?, charIsSpace c = false := by
  intro c hc
  cases hc
  decide

theorem numbers_stop : ∀ c ∈ t.encodeNumbers.head?, charIsSpace c = false := by
  intro c hc
  obtain ⟨d, ds, hds⟩ := List.exists_cons_of_ne_nil t.first_digits.1
  have hd := t.first_digits.2 d (hds ▸ List.mem_cons_self)
  rw [encodeNumbers, hds] at hc
  cases hc
  exact digit_not_space hd

theorem dash_stop (rest : Bytes) : ∀ c ∈ (45 :: rest).head?, charIsDigit c = false := by
  intro c hc
  cases hc
  decide

theorem slash_stop (rest : Bytes) : ∀ c ∈ (47 :: rest).head?, charIsDigit c = false := by
  intro c hc
  cases hc
  decide

theorem behind_stop : ∀ c ∈ t.behind.head?, charIsDigit c = false := by
  intro c hc
  have hspace := t.behind_space c (List.mem_of_mem_head? hc)
  rw [Bool.eq_false_iff]
  intro hdigit
  rw [digit_not_space hdigit] at hspace
  cases hspace

theorem encode_numbers_inj {t t' : RangeText} (h : t.encode = t'.encode) :
    t.first = t'.first ∧ t.last = t'.last ∧ t.total = t'.total := by
  have hbytes := append_stop_inj t.before_space t'.before_space t.bytes_stop t'.bytes_stop h
  have hspaces := append_stop_inj t.between_space t'.between_space t.numbers_stop t'.numbers_stop
    (List.append_cancel_left hbytes.2)
  have hfirst := append_stop_inj t.first_digits.2 t'.first_digits.2 (dash_stop _) (dash_stop _) hspaces.2
  have hlast := append_stop_inj t.last_digits.2 t'.last_digits.2 (slash_stop _) (slash_stop _)
    (List.cons.inj hfirst.2).2
  have htotal := append_stop_inj t.total_digits.2 t'.total_digits.2 t.behind_stop t'.behind_stop
    (List.cons.inj hlast.2).2
  exact ⟨hfirst.1, hlast.1, htotal.1⟩

end RangeText

namespace ClientResponse

/-- The condition on the three numbers. -/
def IsRange (beg last tot : UInt64) : Prop := beg ≤ last + 1 ∧ beg ≤ tot ∧ last < tot

instance (beg last tot : UInt64) : Decidable (IsRange beg last tot) :=
  inferInstanceAs (Decidable (beg ≤ last + 1 ∧ beg ≤ tot ∧ last < tot))

/-- None of the numbers is refused. -/
def Readable (t : RangeText) : Prop := ¬Shrinks 0 t.first ∧ ¬Shrinks 0 t.last ∧ ¬Shrinks 0 t.total

def read (digits : Bytes) : UInt64 := UInt64.ofNat (digitsValue digits)

theorem parseContentRange_encode {t : RangeText} (ht : Readable t)
    (hrange : IsRange (read t.first) (read t.last) (read t.total)) :
    parseContentRange t.encode = some (read t.first, read t.last, read t.total) := by
  have hspace := parseIf_append t.before_space t.bytes_stop
  have hbytes := parseLiteral_append (lit "bytes") (t.between ++ t.encodeNumbers)
  have hbetween := parseIf_append t.between_space t.numbers_stop
  have hfirst : parseNumber t.encodeNumbers = _ := parseNumber_append t.first_digits (RangeText.dash_stop _) ht.1
  have hlast := parseNumber_append t.last_digits (RangeText.slash_stop (t.total ++ t.behind)) ht.2.1
  have htotal := parseNumber_append t.total_digits t.behind_stop ht.2.2
  have hbehind : (parseIf charIsSpace t.behind).2 = [] := by
    have hall := (takeWhile_append_stop t.behind_space fun c (hc : c ∈ [].head?) => by cases hc).2
    rwa [List.append_nil] at hall
  rw [RangeText.encode, parseContentRange]
  simp only [hspace, hbytes, hbetween, hfirst, parseChar_cons, hlast, htotal, hbehind]
  refine if_pos ⟨by decide, List.length_pos_of_ne_nil t.between_ne, List.length_pos_of_ne_nil t.first_digits.1,
    by decide, List.length_pos_of_ne_nil t.last_digits.1, by decide, List.length_pos_of_ne_nil t.total_digits.1,
    trivial, hrange⟩

theorem parseContentRange_some {value : Bytes} {beg last tot : UInt64}
    (h : parseContentRange value = some (beg, last, tot)) :
    ∃ t : RangeText, value = t.encode ∧ Readable t ∧ beg = read t.first ∧ last = read t.last ∧ tot = read t.total ∧
      IsRange beg last tot := by
  simp only [parseContentRange] at h
  split_ifs at h with hgood
  obtain ⟨hbytes, hspace, hbeg, hdash, hlast, hslash, htot, hend, hrange⟩ := hgood
  cases h
  obtain ⟨before, hbefore, -, hvalue⟩ := parseIf_split charIsSpace value
  have hliteral := parseLiteral_split hbytes
  obtain ⟨between, hbetween, hlength, hmem⟩ :=
    parseIf_split charIsSpace (parseLiteral (lit "bytes") (parseIf charIsSpace value).2).2
  obtain ⟨first, hfirst, hreadFirst, hvalueFirst, hmemFirst⟩ := parseNumber_split hbeg
  have hdash' := parseChar_split hdash
  obtain ⟨last, hlast, hreadLast, hvalueLast, hmemLast⟩ := parseNumber_split hlast
  have hslash' := parseChar_split hslash
  obtain ⟨total, htotal, hreadTotal, hvalueTotal, hmemTotal⟩ := parseNumber_split htot
  have hbehind := List.dropWhile_eq_nil_iff.mp hend
  refine ⟨⟨before, between, first, last, total, _, hbefore, hbetween, hbehind, ?_, hfirst, hlast, htotal⟩, ?_,
    ⟨hreadFirst, hreadLast, hreadTotal⟩, hvalueFirst, hvalueLast, hvalueTotal, hrange⟩
  · rw [← hlength] at hspace
    exact List.ne_nil_of_length_pos hspace
  · rw [RangeText.encode, RangeText.encodeNumbers]
    dsimp only
    rw [← hmemTotal, ← hslash', ← hmemLast, ← hdash', ← hmemFirst, ← hmem, ← hliteral, ← hvalue]

theorem handleHeader_contentRange (r : ClientResponse) {f : HeaderField}
    (hname : strCaseCompare f.name (lit "Content-Range") = 0) : r.handleHeader f = r.handleContentRange f.value := by
  have hother : strCaseCompare f.name (lit "Content-Length") ≠ 0 := by
    rw [strCaseCompare_eq_zero] at hname
    rw [Ne, strCaseCompare_eq_zero, hname]
    decide
  rw [handleHeader, if_neg hother, if_pos hname]

theorem handleHeader_encode (r : ClientResponse) {f : HeaderField}
    (hname : strCaseCompare f.name (lit "Content-Range") = 0) {t : RangeText} (hvalue : f.value = t.encode)
    (ht : Readable t) (hrange : IsRange (read t.first) (read t.last) (read t.total)) :
    r.handleHeader f = { r with
      hasContentRange := true, contentRangeStart := read t.first,
      contentRangeLength := read t.last - read t.first + 1, contentRangeTotal := read t.total } := by
  rw [handleHeader_contentRange r hname, hvalue, handleContentRange, parseContentRange_encode ht hrange]

theorem exists_of_hasContentRange {r : ClientResponse} {f : HeaderField}
    (hname : strCaseCompare f.name (lit "Content-Range") = 0) (hnone : r.hasContentRange = false)
    (haccepted : (r.handleHeader f).hasContentRange = true) :
    ∃ t : RangeText, f.value = t.encode ∧ Readable t ∧ IsRange (read t.first) (read t.last) (read t.total) := by
  rw [handleHeader_contentRange r hname, handleContentRange] at haccepted
  cases hparse : parseContentRange f.value with
  | none =>
    rw [hparse] at haccepted
    exact absurd (hnone.symm.trans haccepted) Bool.false_ne_true
  | some range =>
    obtain ⟨beg, last, tot⟩ := range
    obtain ⟨t, hvalue, ht, rfl, rfl, rfl, hrange⟩ := parseContentRange_some hparse
    exact ⟨t, hvalue, ht, hrange⟩

/-- What the response holds is the range as it is written. -/
structure Holds (r : ClientResponse) (t : RangeText) : Prop where
  start : r.contentRangeStart.toNat = digitsValue t.first
  length : r.contentRangeLength.toNat + digitsValue t.first = digitsValue t.last + 1
  total : r.contentRangeTotal.toNat = digitsValue t.total

/-- If a field with this value is accepted, the response holds the range that is written there. -/
def RangeExact (value : Bytes) : Prop :=
  ∀ (r : ClientResponse) (f : HeaderField), strCaseCompare f.name (lit "Content-Range") = 0 → f.value = value →
    r.hasContentRange = false → (r.handleHeader f).hasContentRange = true →
    ∃ t : RangeText, value = t.encode ∧ Holds (r.handleHeader f) t

/-- The numbers of the value fit, or one of them is refused, or their remainders are no range. -/
def RangeFits (value : Bytes) : Prop :=
  ∀ t : RangeText, value = t.encode → Readable t → IsRange (read t.first) (read t.last) (read t.total) →
    digitsValue t.first < 2 ^ 64 ∧ digitsValue t.last < 2 ^ 64 ∧ digitsValue t.total < 2 ^ 64

theorem toNat_read (digits : Bytes) : (read digits).toNat = digitsValue digits % 2 ^ 64 := UInt64.toNat_ofNat'

theorem IsRange.toNat_length {beg last tot : UInt64} (h : IsRange beg last tot) :
    (last - beg + 1).toNat + beg.toNat = last.toNat + 1 := by
  obtain ⟨hbeg, -, hlast⟩ := h
  rw [UInt64.lt_iff_toNat_lt] at hlast
  rw [UInt64.le_iff_toNat_le, UInt64.toNat_add] at hbeg
  have htot := tot.toNat_lt
  have hless := last.toNat_lt
  rw [UInt64.toNat_add, UInt64.toNat_sub]
  change beg.toNat ≤ (last.toNat + 1) % 2 ^ 64 at hbeg
  change ((2 ^ 64 - beg.toNat + last.toNat) % 2 ^ 64 + 1) % 2 ^ 64 + beg.toNat = _
  omega

/-- **When ranges are exact.** -/
theorem rangeExact_iff (value : Bytes) : RangeExact value ↔ RangeFits value := by
  constructor
  · rintro hexact t rfl ht hrange
    have hname : strCaseCompare (lit "Content-Range") (lit "Content-Range") = 0 := by decide
    have hstored : (create false).handleHeader ⟨lit "Content-Range", t.encode⟩ = _ :=
      handleHeader_encode (create false) hname rfl ht hrange
    obtain ⟨t', ht', hholds⟩ := hexact _ ⟨lit "Content-Range", t.encode⟩ hname rfl rfl (by rw [hstored])
    obtain ⟨hfirst, hlast, htotal⟩ := RangeText.encode_numbers_inj ht'
    rw [hstored] at hholds
    obtain ⟨hstart, hlength, htot⟩ := hholds
    dsimp only at hstart hlength htot
    have hsum := hrange.toNat_length
    rw [← hfirst, toNat_read] at hstart
    rw [← htotal, toNat_read] at htot
    rw [← hfirst, ← hlast] at hlength
    rw [toNat_read, toNat_read] at hsum
    omega
  · rintro hfits r f hname rfl hnone haccepted
    obtain ⟨t, hvalue, ht, hrange⟩ := exists_of_hasContentRange hname hnone haccepted
    obtain ⟨hfirst, hlast, htotal⟩ := hfits t hvalue ht hrange
    have hlength := hrange.toNat_length
    rw [handleHeader_encode r hname hvalue ht hrange]
    rw [toNat_read t.first, toNat_read t.last, Nat.mod_eq_of_lt hfirst, Nat.mod_eq_of_lt hlast] at hlength
    exact ⟨t, hvalue, (toNat_read t.first).trans (Nat.mod_eq_of_lt hfirst), hlength,
      (toNat_read t.total).trans (Nat.mod_eq_of_lt htotal)⟩

/-- **Numbers are read exactly**, and so are ranges, iff they fit or it is noticed that they do not. -/
theorem numbers_exact_iff (mem value : Bytes) :
    (NumberExact mem ↔
        digitsValue (mem.takeWhile charIsDigit) < 2 ^ 64 ∨ Shrinks 0 (mem.takeWhile charIsDigit)) ∧
      (RangeExact value ↔ RangeFits value) :=
  ⟨numberExact_iff mem, rangeExact_iff value⟩

/-- `bytes 0-30000000000000000000/30000000000000000001` -/
def largeRange : RangeText where
  before := []
  between := [32]
  first := lit "0"
  last := lit "30000000000000000000"
  total := lit "30000000000000000001"
  behind := []
  before_space := fun c hc => by cases hc
  between_space := List.forall_mem_singleton.mpr rfl
  behind_space := fun c hc => by cases hc
  between_ne := List.cons_ne_nil _ _
  first_digits := ⟨List.cons_ne_nil _ _, List.all_eq_true.mp rfl⟩
  last_digits := ⟨List.cons_ne_nil _ _, List.all_eq_true.mp rfl⟩
  total_digits := ⟨List.cons_ne_nil _ _, List.all_eq_true.mp rfl⟩

theorem numbers_wrap_unnoticed : ¬NumberExact (lit "30000000000000000000") ∧ ¬RangeExact largeRange.encode := by
  constructor
  · intro hexact
    exact absurd (hexact 0) (by decide +kernel)
  · rw [rangeExact_iff]
    intro hfits
    have hread : Readable largeRange := ⟨by decide +kernel, by decide +kernel, by decide +kernel⟩
    exact absurd (hfits largeRange rfl hread (by decide +kernel)) (by decide +kernel)

/-! ### Status line -/

def isBlankByte (ch : UInt8) : Bool := ch = 32 ∨ ch = 9

def isVersionByte (ch : UInt8) : Bool := 32 < ch ∧ ch < 0x7F

theorem not_blank_of_version {ch : UInt8} (h : isVersionByte ch = true) : ¬(ch = 32 ∨ ch = 9) := by
  rintro (rfl | rfl)
  all_goals exact absurd h (by decide)

theorem not_blank_of_digit {ch : UInt8} (h : charIsDigit ch = true) : ¬(ch = 32 ∨ ch = 9) := by
  rintro (rfl | rfl)
  all_goals exact absurd h (by decide)

variable (r : ClientResponse)

theorem handleData_version (hstate : r.state = .parseVersion) {version : Bytes}
    (hversion : ∀ c ∈ version, isVersionByte c = true) (hlength : r.version.length + version.length ≤ maxVersion)
    {sep : UInt8} (hsep : isBlankByte sep = true) (data : Bytes) :
    r.handleData (version ++ sep :: data) =
      handleData { r with version := r.version ++ version, state := .parseStatusCode } data := by
  induction version generalizing r with
  | nil =>
    rw [List.nil_append, List.append_nil]
    exact handleData_version_blank hstate (of_decide_eq_true hsep) data
  | cons c version ih =>
    rw [List.forall_mem_cons] at hversion
    rw [List.length_cons] at hlength
    have hchar : 32 < c ∧ c < 0x7F := of_decide_eq_true hversion.1
    have hok : 32 ≤ c ∧ c < 0x7F ∧ r.version.length < maxVersion := ⟨UInt8.le_of_lt hchar.1, hchar.2, by omega⟩
    rw [List.cons_append, handleData_version_char hstate (not_blank_of_version hversion.1) hok,
      ih { r with version := r.version ++ [c] } hstate hversion.2]
    · dsimp only
      rw [List.append_assoc, List.singleton_append]
    · dsimp only
      rw [List.length_append, List.length_singleton]
      omega

/-- A status code as the parser has it. -/
def statusValue (n : UInt32) (code : Bytes) : UInt32 := code.foldl (fun n ch => 10 * n + (ch - 48).toUInt32) n

theorem handleData_statusCode (hstate : r.state = .parseStatusCode) {code : Bytes}
    (hcode : ∀ c ∈ code, charIsDigit c = true) {sep : UInt8} (hsep : isBlankByte sep = true) (data : Bytes) :
    r.handleData (code ++ sep :: data) =
      handleData { r with statusCode := statusValue r.statusCode code, state := .parseStatusPhrase } data := by
  induction code generalizing r with
  | nil => exact handleData_statusCode_blank hstate (of_decide_eq_true hsep) data
  | cons c code ih =>
    rw [List.forall_mem_cons] at hcode
    rw [List.cons_append, handleData_statusCode_digit hstate (not_blank_of_digit hcode.1) hcode.1]
    exact ih { r with statusCode := 10 * r.statusCode + (c - 48).toUInt32 } hstate hcode.2

theorem handleData_statusPhrase (hstate : r.state = .parseStatusPhrase) {phrase : Bytes} (hphrase : 10 ∉ phrase)
    (data : Bytes) :
    ∃ text, r.handleData (phrase ++ 10 :: data) =
      handleData { r with statusPhrase := text, state := .parseHeader } data := by
  induction phrase generalizing r with
  | nil => exact ⟨r.statusPhrase, handleData_statusPhrase_newline hstate data⟩
  | cons c phrase ih =>
    rw [List.mem_cons, not_or] at hphrase
    obtain ⟨first, hfirst⟩ := handleData_statusPhrase_char hstate (Ne.symm hphrase.1)
    obtain ⟨text, htext⟩ := ih { r with statusPhrase := first } hstate hphrase.2
    exact ⟨text, (hfirst _).trans htext⟩

/-! Otherwise the response does not get past this field. -/

theorem version_cases (hstate : r.state = .parseVersion) (hlength : r.version.length ≤ maxVersion) (data : Bytes) :
    (r.handleData data).1.state ≠ .finalSuccess ∨
      ∃ version sep rest, data = version ++ sep :: rest ∧ (∀ c ∈ version, isVersionByte c = true) ∧
        r.version.length + version.length ≤ maxVersion ∧ isBlankByte sep = true := by
  induction data generalizing r with
  | nil =>
    left
    simp [handleData, inState, hstate, parseVersion]
  | cons c data ih =>
    by_cases hblank : c = 32 ∨ c = 9
    · exact .inr ⟨[], c, data, rfl, fun _ hc => absurd hc List.not_mem_nil, hlength, decide_eq_true hblank⟩
    by_cases hok : 32 ≤ c ∧ c < 0x7F ∧ r.version.length < maxVersion
    · rw [handleData_version_char hstate hblank hok]
      refine (ih { r with version := r.version ++ [c] } hstate ?_).imp id ?_
      · rw [List.length_append, List.length_singleton]
        omega
      · rintro ⟨version, sep, rest, rfl, hversion, hmore, hsep⟩
        have hchar : isVersionByte c = true :=
          decide_eq_true ⟨UInt8.lt_of_le_of_ne hok.1 fun h => hblank (.inl h.symm), hok.2.1⟩
        refine ⟨c :: version, sep, rest, rfl, List.forall_mem_cons.mpr ⟨hchar, hversion⟩, ?_, hsep⟩
        rw [List.length_append, List.length_singleton] at hmore
        rw [List.length_cons]
        omega
    · left
      rw [handleData_version_other hstate hblank hok, handleData_failParse]
      exact fun h => by cases h

theorem statusCode_cases (hstate : r.state = .parseStatusCode) (data : Bytes) :
    (r.handleData data).1.state ≠ .finalSuccess ∨
      ∃ code sep rest, data = code ++ sep :: rest ∧ (∀ c ∈ code, charIsDigit c = true) ∧ isBlankByte sep = true := by
  induction data generalizing r with
  | nil =>
    left
    simp [handleData, inState, hstate, parseStatusCode]
  | cons c data ih =>
    by_cases hblank : c = 32 ∨ c = 9
    · exact .inr ⟨[], c, data, rfl, fun _ hc => absurd hc List.not_mem_nil, decide_eq_true hblank⟩
    by_cases hok : charIsDigit c = true
    · rw [handleData_statusCode_digit hstate hblank hok]
      refine (ih { r with statusCode := 10 * r.statusCode + (c - 48).toUInt32 } hstate).imp id ?_
      rintro ⟨code, sep, rest, rfl, hcode, hsep⟩
      exact ⟨c :: code, sep, rest, rfl, List.forall_mem_cons.mpr ⟨hok, hcode⟩, hsep⟩
    · left
      rw [handleData_statusCode_other hstate hblank hok, handleData_failParse]
      exact fun h => by cases h

theorem statusPhrase_cases (hstate : r.state = .parseStatusPhrase) (data : Bytes) :
    (r.handleData data).1.state ≠ .finalSuccess ∨ ∃ phrase rest, data = phrase ++ 10 :: rest ∧ 10 ∉ phrase := by
  induction data generalizing r with
  | nil =>
    left
    simp [handleData, inState, hstate, parseStatusPhrase]
  | cons c data ih =>
    by_cases hnewline : c = 10
    · exact .inr ⟨[], data, by rw [hnewline]; rfl, List.not_mem_nil⟩
    · obtain ⟨text, htext⟩ := handleData_statusPhrase_char hstate hnewline
      rw [htext]
      refine (ih { r with statusPhrase := text } hstate).imp id ?_
      rintro ⟨phrase, rest, rfl, hphrase⟩
      exact ⟨c :: phrase, rest, rfl, List.not_mem_cons_of_ne_of_not_mem (Ne.symm hnewline) hphrase⟩

end ClientResponse

/-! ### Status code -/

/-- A status line that is accepted, up to its newline. -/
structure StatusText where
  version : Bytes
  sep : UInt8
  code : Bytes
  sep' : UInt8
  phrase : Bytes
  version_bytes : ∀ c ∈ version, ClientResponse.isVersionByte c = true
  version_length : version.length ≤ ClientResponse.maxVersion
  sep_blank : ClientResponse.isBlankByte sep = true
  code_digits : ∀ c ∈ code, charIsDigit c = true
  sep'_blank : ClientResponse.isBlankByte sep' = true
  phrase_line : 10 ∉ phrase

namespace StatusText

def encode (s : StatusText) : Bytes := s.version ++ s.sep :: (s.code ++ s.sep' :: (s.phrase ++ [10]))

theorem sep_stop {sep : UInt8} (hsep : ClientResponse.isBlankByte sep = true) (rest : Bytes) :
    (∀ c ∈ (sep :: rest).head?, ClientResponse.isVersionByte c = false) ∧
      ∀ c ∈ (sep :: rest).head?, charIsDigit c = false := by
  have hblank : sep = 32 ∨ sep = 9 := of_decide_eq_true hsep
  constructor
  all_goals
    intro c hc
    cases hc
    rcases hblank with rfl | rfl <;> decide

theorem encode_code_inj {s s' : StatusText} {rest rest' : Bytes} (h : s.encode ++ rest = s'.encode ++ rest') :
    s.code = s'.code := by
  simp only [encode, List.append_assoc, List.cons_append] at h
  have hversion := append_stop_inj s.version_bytes s'.version_bytes (sep_stop s.sep_blank _).1
    (sep_stop s'.sep_blank _).1 h
  exact (append_stop_inj s.code_digits s'.code_digits (sep_stop s.sep'_blank _).2 (sep_stop s'.sep'_blank _).2
    (List.cons.inj hversion.2).2).1

end StatusText

namespace ClientResponse

/-- The header fields end there, and there is no error in them. -/
def HeaderSucceeds (rest : Bytes) : Prop :=
  (HeaderParser.create.handleData rest).1.state = .final ∧ (HeaderParser.create.handleData rest).1.hasErrors = false

theorem toNat_statusValue {n : UInt32} {a : Nat} (hn : n.toNat = a % 2 ^ 32) {code : Bytes}
    (hcode : ∀ c ∈ code, charIsDigit c = true) :
    (statusValue n code).toNat = code.foldl (fun n c => 10 * n + (c.toNat - 48)) a % 2 ^ 32 := by
  induction code generalizing n a with
  | nil => exact hn
  | cons c code ih =>
    rw [List.forall_mem_cons] at hcode
    have hdigit : (c - 48).toUInt32.toNat = c.toNat - 48 := by
      have h64 := toNat_sub_digit hcode.1
      rwa [UInt8.toNat_toUInt64, ← UInt8.toNat_toUInt32] at h64
    refine ih ?_ hcode.2
    rw [UInt32.toNat_add, UInt32.toNat_mul, hdigit]
    show (10 * n.toNat % 2 ^ 32 + (c.toNat - 48)) % 2 ^ 32 = (10 * a + (c.toNat - 48)) % 2 ^ 32
    omega

theorem statusCode_handleHeader (r : ClientResponse) (f : HeaderField) :
    (r.handleHeader f).statusCode = r.statusCode := by
  have hlength : ∀ value, (r.handleContentLength value).statusCode = r.statusCode := by
    intro value
    rw [handleContentLength]
    cases strToULong value <;> rfl
  have hrange : ∀ value, (r.handleContentRange value).statusCode = r.statusCode := by
    intro value
    rw [handleContentRange]
    cases parseContentRange value <;> rfl
  have hcookie : ∀ value, (r.handleCookie value).statusCode = r.statusCode := by
    intro value
    rw [handleCookie]
    cases value.dropWhile _ with
    | nil => rfl
    | cons c rest => exact (apply_ite statusCode _ _ _).trans (ite_self _)
  simp only [handleHeader, handleConnection, handleContentEncoding, apply_ite statusCode, hlength, hrange, hcookie,
    ite_self]

theorem statusCode_foldl (r : ClientResponse) (fields : HeaderTable) :
    (fields.foldl handleHeader r).statusCode = r.statusCode := by
  induction fields generalizing r with
  | nil => rfl
  | cons f fields ih => rw [List.foldl_cons, ih, statusCode_handleHeader]

theorem parseHeader_result (r : ClientResponse) (hstate : r.state = .parseHeader) (data : Bytes) :
    (r.parseHeader data).1.state =
        (if (r.headerParser.handleData data).1.state = .final then .finalSuccess else .parseHeader) ∧
      (r.parseHeader data).1.headerParser = (r.headerParser.handleData data).1 ∧
      (r.parseHeader data).1.statusCode = r.statusCode := by
  have hcode : (r.parsed (r.headerParser.handleData data).1).statusCode = r.statusCode := statusCode_foldl _ _
  rw [parseHeader_eq]
  dsimp only
  rw [close]
  split_ifs
  · exact ⟨rfl, headerParser_parsed r _, hcode⟩
  · exact ⟨(state_parsed r _).trans hstate, headerParser_parsed r _, hcode⟩

theorem handleData_parseHeader {r : ClientResponse} (hstate : r.state = .parseHeader) (data : Bytes) :
    r.handleData data = r.parseHeader data := by
  simp [handleData, inState, hstate]

theorem handleData_encode (isHeadRequest : Bool) (s : StatusText) (rest : Bytes) :
    ∃ r : ClientResponse, r.state = .parseHeader ∧ r.headerParser = .create ∧ r.statusCode = statusValue 0 s.code ∧
      (create isHeadRequest).handleData (s.encode ++ rest) = r.parseHeader rest := by
  let coded : ClientResponse :=
    { create isHeadRequest with
      version := s.version, statusCode := statusValue 0 s.code, state := .parseStatusPhrase }
  have hlength : (create isHeadRequest).version.length + s.version.length ≤ maxVersion :=
    (Nat.zero_add _).trans_le s.version_length
  obtain ⟨text, htext⟩ := handleData_statusPhrase coded rfl s.phrase_line rest
  refine ⟨{ coded with statusPhrase := text, state := .parseHeader }, rfl, rfl, rfl, ?_⟩
  simp only [StatusText.encode, List.append_assoc, List.cons_append, List.nil_append]
  rw [handleData_version _ rfl s.version_bytes hlength s.sep_blank,
    handleData_statusCode _ rfl s.code_digits s.sep'_blank]
  exact htext.trans (handleData_parseHeader rfl rest)

theorem encode_of_success {isHeadRequest : Bool} {data : Bytes}
    (h : ((create isHeadRequest).handleData data).1.state = .finalSuccess) :
    ∃ (s : StatusText) (rest : Bytes), data = s.encode ++ rest := by
  obtain ⟨version, sep, rest, rfl, hversion, hlength, hsep⟩ :=
    (version_cases (create isHeadRequest) rfl (Nat.zero_le _) data).resolve_left fun hne => hne h
  rw [handleData_version _ rfl hversion hlength hsep] at h
  obtain ⟨code, sep', rest, rfl, hcode, hsep'⟩ := (statusCode_cases _ rfl rest).resolve_left fun hne => hne h
  rw [handleData_statusCode _ rfl hcode hsep'] at h
  obtain ⟨phrase, rest, rfl, hphrase⟩ := (statusPhrase_cases _ rfl rest).resolve_left fun hne => hne h
  refine ⟨⟨version, sep, code, sep', phrase, hversion, (Nat.zero_add _).symm.trans_le hlength, hsep, hcode, hsep',
    hphrase⟩, rest, ?_⟩
  simp only [StatusText.encode, List.append_assoc, List.cons_append, List.nil_append]

theorem handleData_accepted (isHeadRequest : Bool) (s : StatusText) (rest : Bytes) :
    let r := ((create isHeadRequest).handleData (s.encode ++ rest)).1
    r.statusCode.toNat = digitsValue s.code % 2 ^ 32 ∧
      (r.isComplete = true ∧ r.hasErrors = false ↔
        HeaderSucceeds rest ∧ 100 ≤ digitsValue s.code % 2 ^ 32 ∧ digitsValue s.code % 2 ^ 32 < 1000) := by
  obtain ⟨r, hstate, hparser, hcode, hdata⟩ := handleData_encode isHeadRequest s rest
  obtain ⟨hstate', hparser', hcode'⟩ := parseHeader_result r hstate rest
  rw [hdata]
  dsimp only
  have hvalue : (r.parseHeader rest).1.statusCode.toNat = digitsValue s.code % 2 ^ 32 := by
    rw [hcode', hcode]
    exact toNat_statusValue rfl s.code_digits
  refine ⟨hvalue, ?_⟩
  rw [hparser] at hstate' hparser'
  rw [← hvalue, HeaderSucceeds, isComplete, hasErrors, hstate', hparser', decide_eq_true_eq, decide_eq_false_iff_not,
    UInt32.lt_iff_toNat_lt, UInt32.le_iff_toNat_le]
  show _ ∧ ¬(_ ∨ _ ∨ _ < 100 ∨ 1000 ≤ _) ↔ _
  by_cases hfinal : (HeaderParser.create.handleData rest).1.state = .final
  · rw [if_pos hfinal]
    simp only [reduceCtorEq, or_false, false_or, true_and, not_or, Bool.not_eq_true, Nat.not_lt, Nat.not_le, hfinal]
  · rw [if_neg hfinal]
    simp only [reduceCtorEq, or_false, false_and, hfinal]

/-- If the response is complete and has no error, its status code is the one that is written, and has three digits. -/
def StatusExact (isHeadRequest : Bool) (pieces : List Bytes) : Prop :=
  let r := (feed handleData (create isHeadRequest) pieces).1
  r.isComplete = true → r.hasErrors = false →
    ∃ (s : StatusText) (rest : Bytes), pieces.flatten = s.encode ++ rest ∧
      digitsValue s.code = r.statusCode.toNat ∧ 100 ≤ digitsValue s.code ∧ digitsValue s.code ≤ 999

/-- The status code fits, or its remainder is out of range. -/
def StatusFits (data : Bytes) : Prop :=
  ∀ (s : StatusText) (rest : Bytes), data = s.encode ++ rest → HeaderSucceeds rest →
    digitsValue s.code < 2 ^ 32 ∨ digitsValue s.code % 2 ^ 32 < 100 ∨ 999 < digitsValue s.code % 2 ^ 32

/-- **When status codes are exact.** -/
theorem statusExact_iff (isHeadRequest : Bool) (pieces : List Bytes) :
    StatusExact isHeadRequest pieces ↔ StatusFits pieces.flatten := by
  have hwhole : feed handleData (create isHeadRequest) pieces = (create isHeadRequest).handleData pieces.flatten :=
    resumable.feed_eq (.inr (show HeaderState.initial ≠ .final by decide)) pieces
  rw [StatusExact, hwhole]
  constructor
  · intro hexact s rest hdata hheader
    by_contra hwraps
    obtain ⟨hvalue, haccepted⟩ := handleData_accepted isHeadRequest s rest
    obtain ⟨hcomplete, hgood⟩ := haccepted.mpr ⟨hheader, by omega, by omega⟩
    rw [← hdata] at hvalue hcomplete hgood
    obtain ⟨s', rest', hdata', hcode, -⟩ := hexact hcomplete hgood
    rw [← StatusText.encode_code_inj (hdata.symm.trans hdata'), hvalue] at hcode
    omega
  · intro hfits hcomplete hgood
    have hsuccess : ((create isHeadRequest).handleData pieces.flatten).1.state = .finalSuccess := by
      have hstate := of_decide_eq_true hcomplete
      exact hstate.resolve_right fun herror => of_decide_eq_false hgood (.inl herror)
    obtain ⟨s, rest, hdata⟩ := encode_of_success hsuccess
    obtain ⟨hvalue, haccepted⟩ := handleData_accepted isHeadRequest s rest
    rw [← hdata] at hvalue haccepted
    obtain ⟨hheader, hlow, hhigh⟩ := haccepted.mp ⟨hcomplete, hgood⟩
    have hsmall := hfits s rest hdata hheader
    exact ⟨s, rest, hdata, by omega, by omega, by omega⟩

/-- `HTTP/1.1 4294967496 OK` -/
def largeCode : StatusText where
  version := lit "HTTP/1.1"
  sep := 32
  code := lit "4294967496"
  sep' := 32
  phrase := lit "OK\r"
  version_bytes := List.all_eq_true.mp rfl
  version_length := Nat.le_of_ble_eq_true rfl
  sep_blank := rfl
  code_digits := List.all_eq_true.mp rfl
  sep'_blank := rfl
  phrase_line := of_decide_eq_true rfl

theorem status_code_wraps : ¬StatusExact false [lit "HTTP/1.1 4294967", lit "496 OK\r\n\r\n"] := by
  rw [statusExact_iff]
  intro hfits
  have hdata : [lit "HTTP/1.1 4294967", lit "496 OK\r\n\r\n"].flatten = largeCode.encode ++ lit "\r\n" := by decide
  exact absurd (hfits largeCode (lit "\r\n") hdata ⟨by decide, by decide⟩) (by decide)

end ClientResponse

end Afl.Net.Http
