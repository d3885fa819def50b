import Afl.Io.Json.Parser
import Afl.Io.Json.Writer
import Mathlib.Data.List.DropRight
import Mathlib.Tactic.IntervalCases

/-!
# Reading back what was written

The writer breaks lines as its layout wants, but always between tokens, and there the parser skips whitespace.
So the layout need not be followed: `write_spec` keeps of it only that a token may come after whitespace, and
`Reads` is stated for every text of that kind.
-/

namespace Afl.Io.Json

open Afl.Io.Json.Parser Charset

/-! ### Whitespace -/

/-- The text is whitespace. -/
def Blank (gap : Bytes) : Prop := ∀ c ∈ gap, charIsSpace c = true

theorem blank_nil : Blank [] := by
  intro c hc
  cases hc

theorem blank_newline (indentLevel : UInt64) : Blank (newline indentLevel) := by
  intro c hc
  rcases List.mem_cons.mp hc with rfl | hc
  · rfl
  · rw [(List.mem_replicate.mp hc).2]
    rfl

variable {gap : Bytes}

theorem skipWhitespace_blank (hgap : Blank gap) (data : Bytes) :
    skipWhitespace (gap ++ data) = skipWhitespace data := by
  induction gap with
  | nil => rfl
  | cons c gap ih =>
    obtain ⟨hc, hrest⟩ := List.forall_mem_cons.mp hgap
    rw [List.cons_append, skipWhitespace, List.dropWhile_cons_of_pos hc]
    exact ih hrest

theorem skipWhitespace_cons {c : UInt8} (hc : charIsSpace c = false) (data : Bytes) :
    skipWhitespace (c :: data) = c :: data := by
  rw [skipWhitespace, List.dropWhile_cons_of_neg (by simp [hc])]

theorem write_spec (layout : Layout) (str : Bytes) (flags : Flags) (line : Line) :
    ∃ gap, Blank gap ∧ (Writer.write layout str flags line).1 = gap ++ str := by
  simp only [Writer.write]
  generalize (if flags.undentBefore then line.currentIndentLevel - layout.indentStep
    else line.currentIndentLevel) = indentLevel
  split_ifs
  · exact ⟨_, blank_newline indentLevel, rfl⟩
  · exact ⟨[], blank_nil, rfl⟩

/-! ### Strings -/

theorem append_control {ch : UInt8} (hch : ch < 32) : Utf8.append 0 (UInt32.ofNat ch.toNat) = [ch] := by
  have hlt : ch.toNat < 32 := UInt8.lt_iff_toNat_lt.mp hch
  have hsmall : ¬0x80 ≤ UInt32.ofNat ch.toNat := by
    rw [UInt32.le_iff_toNat_le]
    simp
    omega
  have hflags : ∀ flag, hasFlag 0 flag = false := by
    intro flag
    simp [hasFlag]
  rw [Utf8.append, hflags, hflags, hflags, if_neg (by simp), if_neg (by simp), if_neg (by simp), if_neg hsmall]
  simp

theorem length_le_flatMap_escape (str : Bytes) : str.length ≤ (str.flatMap Writer.escape).length := by
  induction str with
  | nil => exact Nat.le_refl 0
  | cons ch str ih =>
    have hpos : 0 < (Writer.escape ch).length := by
      rw [Writer.escape]
      split_ifs <;> simp [lit]
    rw [List.flatMap_cons, List.length_append, List.length_cons]
    omega

section

variable [ParserClass]

theorem parseUnicodeEscape_formatHex4 {n : Nat} (hn : n < 32) (rest : Bytes) :
    parseUnicodeEscape (Writer.formatHex4 n ++ rest) = .ok (UInt32.ofNat n, rest) := by
  interval_cases n <;> rfl

theorem stringLoop_escape (fuel : Nat) (value : Bytes) (ch : UInt8) (rest : Bytes) :
    stringLoop (fuel + 1) value (Writer.escape ch ++ rest) = stringLoop fuel (value ++ [ch]) rest := by
  rw [Writer.escape]
  split_ifs with h92 h34 h32 h10 h13 h8 h9 h12
  · subst h92
    rfl
  · subst h34
    rfl
  · have hprint : ¬ch < 0x20 := UInt8.not_lt.mpr h32
    rw [List.cons_append, stringLoop, if_neg h34, if_neg h92, if_neg hprint]
    rfl
  · subst h10
    rfl
  · subst h13
    rfl
  · subst h8
    rfl
  · subst h9
    rfl
  · subst h12
    rfl
  · have hcontrol : ch < 32 := UInt8.not_le.mp h32
    have hlt : ch.toNat < 32 := UInt8.lt_iff_toNat_lt.mp hcontrol
    have hhex := parseUnicodeEscape_formatHex4 hlt rest
    have hescape : parseEscape (117 :: (Writer.formatHex4 ch.toNat ++ rest)) = .ok ([ch], rest) := by
      rw [parseEscape, if_pos rfl, hhex]
      simp only [append_control hcontrol]
    have htext : lit "\\u" ++ Writer.formatHex4 ch.toNat ++ rest =
        92 :: 117 :: (Writer.formatHex4 ch.toNat ++ rest) := rfl
    rw [htext, stringLoop, if_neg (by decide), if_pos rfl, hescape]

theorem stringLoop_quote {fuel : Nat} {str : Bytes} (hfuel : str.length < fuel) (value rest : Bytes) :
    stringLoop fuel value (str.flatMap Writer.escape ++ 34 :: rest) = .ok (value ++ str, rest) := by
  induction str generalizing fuel value with
  | nil =>
    obtain ⟨fuel, rfl⟩ : ∃ n, fuel = n + 1 := ⟨fuel - 1, by omega⟩
    simp [stringLoop]
  | cons ch str ih =>
    obtain ⟨fuel, rfl⟩ : ∃ n, fuel = n + 1 := ⟨fuel - 1, by omega⟩
    rw [List.length_cons] at hfuel
    rw [List.flatMap_cons, List.append_assoc, stringLoop_escape, ih (by omega), List.append_assoc]
    rfl

theorem parseString_quote (str rest : Bytes) :
    parseString (str.flatMap Writer.escape ++ 34 :: rest) = .ok (str, rest) := by
  have hlength := length_le_flatMap_escape str
  rw [parseString, stringLoop_quote, List.nil_append]
  rw [List.length_append, List.length_cons]
  omega

/-! ### Tokens -/

/-- The text does not continue a number or a keyword. -/
def Delimited (rest : Bytes) : Prop :=
  ∀ c tail, rest = c :: tail → isNumberChar c = false ∧ isIdentifierChar c = false

omit [ParserClass] in
theorem delimited_nil : Delimited [] := by
  intro c tail h
  cases h

omit [ParserClass] in
theorem delimited_cons {c : UInt8} (hnumber : isNumberChar c = false) (hidentifier : isIdentifierChar c = false)
    (tail : Bytes) : Delimited (c :: tail) := by
  intro c' tail' h
  cases h
  exact ⟨hnumber, hidentifier⟩

omit [ParserClass] in
theorem delimited_space {c : UInt8} (hc : charIsSpace c = true) (tail : Bytes) : Delimited (c :: tail) := by
  simp only [charIsSpace, Bool.or_eq_true, beq_iff_eq] at hc
  rcases hc with ((rfl | rfl) | rfl) | rfl <;> exact delimited_cons (by decide) (by decide) tail

omit [ParserClass] in
theorem Delimited.blank {gap data : Bytes} (hgap : Blank gap) (hdata : Delimited data) : Delimited (gap ++ data) := by
  rcases gap with _ | ⟨c, gap⟩
  · exact hdata
  · exact delimited_space (hgap c List.mem_cons_self) (gap ++ data)

omit [ParserClass] in
theorem delimited_mark (hgap : Blank gap) {c : UInt8} (hnumber : isNumberChar c = false)
    (hidentifier : isIdentifierChar c = false) (rest : Bytes) : Delimited (gap ++ [c] ++ rest) := by
  rw [List.append_assoc]
  exact Delimited.blank hgap (delimited_cons hnumber hidentifier rest)

/-- The parser takes `text` for the value `v` and nothing of what is delimited from it. -/
structure Reads (v : Value) (text : Bytes) : Prop where
  head : ∃ c tail, skipWhitespace text = c :: tail ∧ c ≠ 93
  parse : ∀ fuel rest, Delimited rest → 2 * (text ++ rest).length + 1 ≤ fuel →
    Parser.parse fuel (text ++ rest) = some (.ok (v, rest))

theorem parse_blank (hgap : Blank gap) (fuel : Nat) (data : Bytes) :
    parse fuel (gap ++ data) = parse fuel data := by
  rcases fuel with _ | fuel
  · rfl
  · rw [parse, parse, skipWhitespace_blank hgap]

variable {v : Value}

theorem Reads.blank {gap text : Bytes} (hgap : Blank gap) (h : Reads v text) : Reads v (gap ++ text) where
  head := by
    rw [skipWhitespace_blank hgap]
    exact h.head
  parse := by
    intro fuel rest hrest hfuel
    rw [List.append_assoc, parse_blank hgap]
    refine h.parse fuel rest hrest ?_
    rw [List.append_assoc, List.length_append] at hfuel
    omega

theorem Reads.of_cons {c : UInt8} {text : Bytes} (hspace : charIsSpace c = false) (hclose : c ≠ 93)
    (h : ∀ fuel rest, Delimited rest → 2 * (text ++ rest).length + 2 ≤ fuel →
      Parser.parse (fuel + 1) (c :: (text ++ rest)) = some (.ok (v, rest))) : Reads v (c :: text) where
  head := ⟨c, text, skipWhitespace_cons hspace text, hclose⟩
  parse := by
    intro fuel rest hrest hfuel
    rw [List.cons_append, List.length_cons] at hfuel
    obtain ⟨fuel, rfl⟩ : ∃ n, fuel = n + 1 := ⟨fuel - 1, by omega⟩
    exact h fuel rest hrest (by omega)

theorem reads_quote (str : Bytes) : Reads (.string str) (Writer.quote str) := by
  have htext : Writer.quote str = 34 :: (str.flatMap Writer.escape ++ [34]) := rfl
  rw [htext]
  refine Reads.of_cons (by decide) (by decide) ?_
  intro fuel rest _ _
  have hstring := parseString_quote str rest
  rw [List.append_assoc, List.singleton_append, parse, skipWhitespace_cons (by decide)]
  simp only
  rw [if_neg (by decide), if_neg (by decide), if_pos trivial, hstring]

theorem parseKeyword_append (kw : Bytes) {rest : Bytes} (hrest : Delimited rest) :
    parseKeyword kw (kw ++ rest) = .ok rest := by
  induction kw with
  | nil =>
    have hhead : ¬rest.head?.any isIdentifierChar = true := by
      rcases rest with _ | ⟨c, tail⟩
      · simp
      · simp [(hrest c tail rfl).2]
    rw [List.nil_append, parseKeyword, if_neg hhead]
  | cons c kw ih =>
    rw [List.cons_append, parseKeyword, if_neg (by simp)]
    exact ih

theorem keywordValue_append (kw : Bytes) (v : Value) {rest : Bytes} (hrest : Delimited rest) :
    keywordValue kw v (kw ++ rest) = .ok (v, rest) := by
  rw [keywordValue, parseKeyword_append kw hrest]

theorem reads_null : Reads .null (lit "null") := by
  refine Reads.of_cons (by decide) (by decide) ?_
  intro fuel rest hrest _
  have hkeyword := keywordValue_append (lit "null") .null hrest
  rw [parse, skipWhitespace_cons (by decide)]
  simp only
  rw [if_neg (by decide), if_neg (by decide), if_neg (by decide), if_pos (by decide)]
  exact congrArg some hkeyword

theorem reads_boolean (bv : Bool) : Reads (.boolean bv) (if bv then lit "true" else lit "false") := by
  cases bv with
  | true =>
    refine Reads.of_cons (by decide) (by decide) ?_
    intro fuel rest hrest _
    have hkeyword := keywordValue_append (lit "true") (.boolean true) hrest
    rw [parse, skipWhitespace_cons (by decide)]
    simp only
    rw [if_neg (by decide), if_neg (by decide), if_neg (by decide), if_neg (by decide), if_pos (by decide)]
    exact congrArg some hkeyword
  | false =>
    refine Reads.of_cons (by decide) (by decide) ?_
    intro fuel rest hrest _
    have hkeyword := keywordValue_append (lit "false") (.boolean false) hrest
    rw [parse, skipWhitespace_cons (by decide)]
    simp only
    rw [if_neg (by decide), if_neg (by decide), if_neg (by decide), if_neg (by decide), if_neg (by decide),
      if_pos (by decide)]
    exact congrArg some hkeyword

omit [ParserClass] in
theorem isNumberChar_of_mem_decimal (i : Int) : ∀ c ∈ decimal i, isNumberChar c = true := by
  have hdigit : ∀ c ∈ decimalNat i.natAbs, isNumberChar c = true := by
    intro c hc
    rw [isNumberChar, charIsDigit_of_mem_decimalNat i.natAbs c hc, Bool.or_true]
  rw [decimal]
  split_ifs
  · exact List.forall_mem_cons.mpr ⟨by decide, hdigit⟩
  · exact hdigit

theorem parseNumber_decimal (iv : Int32) {rest : Bytes} (hrest : Delimited rest) :
    parseNumber (decimal iv.toInt ++ rest) = .ok (.integer iv, rest) := by
  have hchars := isNumberChar_of_mem_decimal iv.toInt
  have hstop : rest.takeWhile isNumberChar = [] ∧ rest.dropWhile isNumberChar = rest := by
    rcases rest with _ | ⟨c, tail⟩
    · exact ⟨rfl, rfl⟩
    · have hc : ¬isNumberChar c = true := by simp [(hrest c tail rfl).1]
      exact ⟨List.takeWhile_cons_of_neg hc, List.dropWhile_cons_of_neg hc⟩
  rw [parseNumber, List.takeWhile_append_of_pos hchars, List.dropWhile_append_of_pos hchars, hstop.1, hstop.2,
    List.append_nil, strToInt32_decimal]

omit [ParserClass] in
theorem decimal_cons (i : Int) : ∃ c cs, decimal i = c :: cs ∧ (c = 45 ∨ charIsDigit c = true) := by
  rw [decimal]
  split_ifs
  · exact ⟨45, decimalNat i.natAbs, rfl, .inl rfl⟩
  · obtain ⟨c, cs, hcons⟩ := List.exists_cons_of_ne_nil (decimalNat_ne_nil i.natAbs)
    refine ⟨c, cs, hcons, .inr ?_⟩
    exact charIsDigit_of_mem_decimalNat i.natAbs c (by rw [hcons]; exact List.mem_cons_self)

theorem reads_integer (iv : Int32) : Reads (.integer iv) (decimal iv.toInt) := by
  obtain ⟨c, cs, hcons, hc⟩ := decimal_cons iv.toInt
  have hother : ∀ d : UInt8, charIsDigit d = false → d ≠ 45 → c ≠ d := by
    rintro d hdigit hminus rfl
    rcases hc with rfl | hc
    · exact hminus rfl
    · rw [hc] at hdigit
      cases hdigit
  have hspace : charIsSpace c = false := by
    simp [charIsSpace, hother 32 (by decide) (by decide), hother 9 (by decide) (by decide),
      hother 13 (by decide) (by decide), hother 10 (by decide) (by decide)]
  rw [hcons]
  refine Reads.of_cons hspace (hother 93 (by decide) (by decide)) ?_
  intro fuel rest hrest _
  have hnumber := parseNumber_decimal iv hrest
  rw [hcons, List.cons_append] at hnumber
  rw [parse, skipWhitespace_cons hspace]
  simp only
  rw [if_neg (hother 91 (by decide) (by decide)), if_neg (hother 123 (by decide) (by decide)),
    if_neg (hother 34 (by decide) (by decide)), if_neg (hother 110 (by decide) (by decide)),
    if_neg (hother 116 (by decide) (by decide)), if_neg (hother 102 (by decide) (by decide)), if_pos hc, hnumber]

/-! ### Vectors -/

/-- The loop of `parseArray` after it has read an element. -/
def afterElement (fuel : Nat) (values : Segment) (data : Bytes) : Option (Except Exception (Value × Bytes)) :=
  match parseChar2 44 93 (skipWhitespace data) with
  | .error e => some (.error e)
  | .ok true => elements fuel values ((skipWhitespace data).drop 1)
  | .ok false => some (.ok (.vector values, (skipWhitespace data).drop 1))

/-- The parser takes `text` for the elements `vs` after the first and for the closing bracket. -/
structure ReadsTail (vs : Segment) (text : Bytes) : Prop where
  delimited : ∀ rest, Delimited (text ++ rest)
  parse : ∀ fuel values rest, 2 * (text ++ rest).length + 2 ≤ fuel →
    afterElement fuel values (text ++ rest) = some (.ok (.vector (values ++ vs), rest))

theorem readsTail_close (hgap : Blank gap) : ReadsTail [] (gap ++ [93]) where
  delimited := delimited_mark hgap (by decide) (by decide)
  parse := by
    intro fuel values rest _
    rw [List.append_assoc, afterElement, skipWhitespace_blank hgap, List.singleton_append,
      skipWhitespace_cons (by decide), List.append_nil]
    rfl

theorem Reads.length_pos {text : Bytes} (h : Reads v text) : 0 < text.length := by
  obtain ⟨c, tail, hhead, -⟩ := h.head
  rcases text with _ | ⟨c, text⟩
  · cases hhead
  · exact Nat.succ_pos _

theorem elements_cons {vs : Segment} {text tail : Bytes} (hv : Reads v text) (htail : ReadsTail vs tail)
    {fuel : Nat} {rest : Bytes} (hfuel : 2 * (text ++ (tail ++ rest)).length + 2 ≤ fuel) (values : Segment) :
    elements fuel values (text ++ (tail ++ rest)) = some (.ok (.vector (values ++ v :: vs), rest)) := by
  have hpos := hv.length_pos
  obtain ⟨fuel, rfl⟩ : ∃ n, fuel = n + 1 := ⟨fuel - 1, by omega⟩
  have hparse := hv.parse fuel (tail ++ rest) (htail.delimited rest) (by omega)
  rw [List.length_append] at hfuel
  have hafter := htail.parse fuel (values ++ [v]) rest (by omega)
  rw [elements, hparse]
  rw [List.append_assoc] at hafter
  exact hafter

theorem ReadsTail.comma {vs : Segment} {gap text tail : Bytes} (hgap : Blank gap) (hv : Reads v text)
    (htail : ReadsTail vs tail) : ReadsTail (v :: vs) (gap ++ [44] ++ text ++ tail) where
  delimited := by
    intro rest
    rw [List.append_assoc, List.append_assoc]
    exact delimited_mark hgap (by decide) (by decide) _
  parse := by
    intro fuel values rest hfuel
    have htext : gap ++ [44] ++ text ++ tail ++ rest = gap ++ 44 :: (text ++ (tail ++ rest)) := by simp
    rw [htext, List.length_append, List.length_cons] at hfuel
    rw [htext, afterElement, skipWhitespace_blank hgap, skipWhitespace_cons (by decide)]
    exact elements_cons hv htail (by omega) values

omit [ParserClass] in
theorem skipWhitespace_append {text tail : Bytes} {c : UInt8} (h : skipWhitespace text = c :: tail) (rest : Bytes) :
    skipWhitespace (text ++ rest) = c :: (tail ++ rest) := by
  rw [skipWhitespace] at h
  rw [skipWhitespace, List.dropWhile_append, h]
  rfl

theorem parse_skipWhitespace (fuel : Nat) (data : Bytes) : parse fuel (skipWhitespace data) = parse fuel data := by
  rcases fuel with _ | fuel
  · rfl
  · have hskip : skipWhitespace (skipWhitespace data) = skipWhitespace data := by
      rw [skipWhitespace, skipWhitespace, List.dropWhile_idempotent]
    rw [parse, parse, hskip]

theorem elements_skipWhitespace (fuel : Nat) (values : Segment) (data : Bytes) :
    elements fuel values (skipWhitespace data) = elements fuel values data := by
  rcases fuel with _ | fuel
  · rfl
  · rw [elements, elements, parse_skipWhitespace]

theorem reads_vector {vs : Segment} {text tail : Bytes} (hv : Reads v text) (htail : ReadsTail vs tail) :
    Reads (.vector (v :: vs)) (91 :: (text ++ tail)) := by
  refine Reads.of_cons (by decide) (by decide) ?_
  intro fuel rest _ hfuel
  obtain ⟨c, tail', hhead, hclose⟩ := hv.head
  have hskip := skipWhitespace_append hhead (tail ++ rest)
  rw [List.append_assoc] at hfuel ⊢
  have helements := elements_cons hv htail hfuel []
  rw [← elements_skipWhitespace, hskip] at helements
  rw [parse, skipWhitespace_cons (by decide)]
  simp only
  rw [if_pos trivial, hskip]
  simp only
  rw [if_pos hclose]
  exact helements

theorem reads_emptyVector (hgap : Blank gap) : Reads (.vector []) (91 :: (gap ++ [93])) := by
  refine Reads.of_cons (by decide) (by decide) ?_
  intro fuel rest _ _
  rw [List.append_assoc, parse, skipWhitespace_cons (by decide)]
  simp only
  rw [if_pos trivial, skipWhitespace_blank hgap, List.singleton_append, skipWhitespace_cons (by decide)]
  rfl

/-! ### Hashes -/

omit [ParserClass] in
theorem addMaybe_new {names : List Bytes} {name : Bytes} (hnew : name ∉ names) :
    addMaybe names name = (names.length, names ++ [name]) := by
  rw [addMaybe, List.idxOf?_eq_none_iff.mpr hnew]

omit [ParserClass] in
theorem setNew_length (values : Segment) (v : Value) : setNew values values.length v = values ++ [v] := by
  simp [setNew]

omit [ParserClass] in
theorem createHash_entries (entries : List (Bytes × Value)) :
    createHash (entries.map Prod.fst) (entries.map Prod.snd) = .hash entries := by
  rw [createHash]
  congr 1
  apply List.ext_getElem
  · simp
  · intro i hleft hright
    simp [List.getElem?_eq_getElem hright]

/-- The loop of `parseHash` after it has read a member. -/
def afterMember (fuel : Nat) (names : List Bytes) (values : Segment) (data : Bytes) :
    Option (Except Exception (Value × Bytes)) :=
  match parseChar2 44 125 (skipWhitespace data) with
  | .error e => some (.error e)
  | .ok true => members fuel names values (skipWhitespace ((skipWhitespace data).drop 1))
  | .ok false => some (.ok (createHash names values, (skipWhitespace data).drop 1))

/-- The parser takes `text` for the members `entries` after the first and for the closing brace. -/
structure ReadsMembers (entries : List (Bytes × Value)) (text : Bytes) : Prop where
  delimited : ∀ rest, Delimited (text ++ rest)
  parse : ∀ fuel (done : List (Bytes × Value)) rest, ((done ++ entries).map Prod.fst).Nodup →
    2 * (text ++ rest).length + 2 ≤ fuel →
    afterMember fuel (done.map Prod.fst) (done.map Prod.snd) (text ++ rest) =
      some (.ok (.hash (done ++ entries), rest))

theorem readsMembers_close (hgap : Blank gap) : ReadsMembers [] (gap ++ [125]) where
  delimited := delimited_mark hgap (by decide) (by decide)
  parse := by
    intro fuel done rest _ _
    rw [List.append_assoc, afterMember, skipWhitespace_blank hgap, List.singleton_append,
      skipWhitespace_cons (by decide), List.append_nil, createHash_entries]
    rfl

theorem members_cons {key gap text tail : Bytes} {entries : List (Bytes × Value)} (hgap : Blank gap)
    (hv : Reads v text) (htail : ReadsMembers entries tail) (fuel : Nat) (rest : Bytes) (done : List (Bytes × Value))
    (hfuel : 2 * (Writer.quote key ++ (gap ++ 58 :: (text ++ (tail ++ rest)))).length + 2 ≤ fuel)
    (hkeys : ((done ++ (key, v) :: entries).map Prod.fst).Nodup) :
    members fuel (done.map Prod.fst) (done.map Prod.snd) (Writer.quote key ++ (gap ++ 58 :: (text ++ (tail ++ rest)))) =
      some (.ok (.hash (done ++ (key, v) :: entries), rest)) := by
  obtain ⟨fuel, rfl⟩ : ∃ n, fuel = n + 1 := ⟨fuel - 1, by omega⟩
  simp only [List.length_append, List.length_cons] at hfuel
  have hquote : Writer.quote key ++ (gap ++ 58 :: (text ++ (tail ++ rest))) =
      34 :: (key.flatMap Writer.escape ++ 34 :: (gap ++ 58 :: (text ++ (tail ++ rest)))) := by
    simp [Writer.quote]
  have hnew : key ∉ done.map Prod.fst := by
    rw [List.map_append, List.map_cons] at hkeys
    intro hmem
    exact (List.nodup_append.mp hkeys).2.2 key hmem key List.mem_cons_self rfl
  have hindex : (done.map Prod.fst).length = (done.map Prod.snd).length := by simp
  have hparse := hv.parse fuel (tail ++ rest) (htail.delimited rest) (by
    simp only [List.length_append]
    omega)
  have hafter := htail.parse fuel (done ++ [(key, v)]) rest (by simpa using hkeys) (by
    simp only [List.length_append]
    omega)
  rw [List.map_append, List.map_append, List.append_assoc] at hafter
  rw [hquote, members, parseChar, if_neg (by simp)]
  simp only [List.drop_succ_cons, List.drop_zero]
  rw [parseString_quote]
  simp only [addMaybe_new hnew]
  rw [skipWhitespace_blank hgap, skipWhitespace_cons (by decide), parseChar, if_neg (by simp)]
  simp only [List.drop_succ_cons, List.drop_zero]
  rw [hparse, hindex]
  simp only [setNew_length]
  exact hafter

theorem ReadsMembers.comma {key gap gap' gap'' text tail : Bytes} {entries : List (Bytes × Value)}
    (hgap : Blank gap) (hgap' : Blank gap') (hgap'' : Blank gap'') (hv : Reads v text)
    (htail : ReadsMembers entries tail) :
    ReadsMembers ((key, v) :: entries)
      (gap ++ [44] ++ (gap' ++ Writer.quote key ++ (gap'' ++ [58]) ++ text) ++ tail) where
  delimited := by
    intro rest
    rw [List.append_assoc, List.append_assoc]
    exact delimited_mark hgap (by decide) (by decide) _
  parse := by
    intro fuel done rest hkeys hfuel
    have htext : gap ++ [44] ++ (gap' ++ Writer.quote key ++ (gap'' ++ [58]) ++ text) ++ tail ++ rest =
        gap ++ 44 :: (gap' ++ (Writer.quote key ++ (gap'' ++ 58 :: (text ++ (tail ++ rest))))) := by simp
    have hquote : skipWhitespace (Writer.quote key ++ (gap'' ++ 58 :: (text ++ (tail ++ rest)))) =
        Writer.quote key ++ (gap'' ++ 58 :: (text ++ (tail ++ rest))) := skipWhitespace_cons (by decide) _
    rw [htext, List.length_append, List.length_cons, List.length_append] at hfuel
    have hmembers := members_cons hgap'' hv htail fuel rest done (by omega) hkeys
    rw [htext, afterMember, skipWhitespace_blank hgap, skipWhitespace_cons (by decide)]
    simp only [List.drop_succ_cons, List.drop_zero]
    rw [skipWhitespace_blank hgap', hquote]
    exact hmembers

theorem reads_hash {key gap gap' text tail : Bytes} {entries : List (Bytes × Value)} (hgap : Blank gap)
    (hgap' : Blank gap') (hv : Reads v text) (htail : ReadsMembers entries tail)
    (hkeys : (((key, v) :: entries).map Prod.fst).Nodup) :
    Reads (.hash ((key, v) :: entries)) (123 :: (gap ++ Writer.quote key ++ (gap' ++ [58]) ++ text ++ tail)) := by
  refine Reads.of_cons (by decide) (by decide) ?_
  intro fuel rest _ hfuel
  have htext : gap ++ Writer.quote key ++ (gap' ++ [58]) ++ text ++ tail ++ rest =
      gap ++ (Writer.quote key ++ (gap' ++ 58 :: (text ++ (tail ++ rest)))) := by simp
  have hquote : skipWhitespace (Writer.quote key ++ (gap' ++ 58 :: (text ++ (tail ++ rest)))) =
      Writer.quote key ++ (gap' ++ 58 :: (text ++ (tail ++ rest))) := skipWhitespace_cons (by decide) _
  rw [htext, List.length_append] at hfuel
  have hmembers := members_cons hgap' hv htail fuel rest [] (by omega) hkeys
  rw [htext, parse, skipWhitespace_cons (by decide)]
  simp only
  rw [if_neg (by decide), if_pos trivial, skipWhitespace_blank hgap, hquote]
  exact hmembers

theorem reads_emptyHash (hgap : Blank gap) : Reads (.hash []) (123 :: (gap ++ [125])) := by
  refine Reads.of_cons (by decide) (by decide) ?_
  intro fuel rest _ _
  rw [List.append_assoc, parse, skipWhitespace_cons (by decide)]
  simp only
  rw [if_neg (by decide), if_pos trivial, skipWhitespace_blank hgap, List.singleton_append,
    skipWhitespace_cons (by decide)]
  rfl

/-! ### The round trip -/

mutual

/-- The values that JSON can hold: no floats, errors or other values, and no two members of one name. -/
def Representable : Value → Prop
  | .null | .string _ | .integer _ | .boolean _ => True
  | .float _ _ | .error _ _ | .other => False
  | .hash entries => (entries.map Prod.fst).Nodup ∧ RepresentableEntries entries
  | .vector elements => RepresentableElements elements

def RepresentableEntries : List (Bytes × Value) → Prop
  | [] => True
  | entry :: entries => RepresentableEntry entry ∧ RepresentableEntries entries

def RepresentableEntry : Bytes × Value → Prop
  | (_, v) => Representable v

def RepresentableElements : List Value → Prop
  | [] => True
  | v :: elements => Representable v ∧ RepresentableElements elements

end

theorem Reads.write {str : Bytes} (h : Reads v str) (layout : Layout) (flags : Flags) (line : Line) :
    Reads v (Writer.write layout str flags line).1 := by
  obtain ⟨gap, hgap, htext⟩ := write_spec layout str flags line
  rw [htext]
  exact h.blank hgap

theorem visitEntry_spec (layout : Layout) (key : Bytes) (hv : ∀ line, Reads v (Writer.visit layout v line).1)
    (line : Line) :
    ∃ gap gap' text, Blank gap ∧ Blank gap' ∧ Reads v text ∧
      (Writer.visitEntry layout (key, v) line).1 = gap ++ Writer.quote key ++ (gap' ++ [58]) ++ text := by
  obtain ⟨gap, hgap, hkey⟩ := write_spec layout (Writer.quote key) .none line
  obtain ⟨gap', hgap', hcolon⟩ := write_spec layout [58] .none (Writer.write layout (Writer.quote key) .none line).2
  refine ⟨gap, gap', _, hgap, hgap',
    hv (Writer.write layout [58] .none (Writer.write layout (Writer.quote key) .none line).2).2, ?_⟩
  rw [Writer.visitEntry, Emit.seq, Emit.seq, Writer.visitString, hkey, hcolon]

mutual

theorem reads_visit (layout : Layout) : ∀ v, Representable v → ∀ line, Reads v (Writer.visit layout v line).1
  | .null, _, line => reads_null.write layout .none line
  | .string str, _, line => (reads_quote str).write layout .none line
  | .integer iv, _, line => (reads_integer iv).write layout .none line
  | .boolean bv, _, line => (reads_boolean bv).write layout .none line
  | .float _ _, h, _ => h.elim
  | .error _ _, h, _ => h.elim
  | .other, h, _ => h.elim
  | .vector [], _, line => by
    obtain ⟨gap, hgap, hopen⟩ := write_spec layout [91] .opening line
    obtain ⟨gap', hgap', hclose⟩ := write_spec layout [93] .closing (Writer.write layout [91] .opening line).2
    rw [Writer.visit, Writer.visitElements, Emit.seq_assoc, Emit.skip_seq, Emit.seq, hopen, hclose, List.append_assoc]
    exact (reads_emptyVector hgap').blank hgap
  | .vector (v :: elements), h, line => by
    obtain ⟨gap, hgap, hopen⟩ := write_spec layout [91] .opening line
    have hv := reads_visit layout v h.1 (Writer.write layout [91] .opening line).2
    have htail := readsTail_visit layout elements h.2
      (Writer.visit layout v (Writer.write layout [91] .opening line).2).2
    rw [Writer.visit, Writer.visitElements, Writer.separate, if_pos rfl, Emit.skip_seq, Emit.seq_assoc,
      Emit.seq_assoc, Emit.seq, hopen, List.append_assoc]
    exact (reads_vector hv htail).blank hgap
  | .hash [], _, line => by
    obtain ⟨gap, hgap, hopen⟩ := write_spec layout [123] .opening line
    obtain ⟨gap', hgap', hclose⟩ := write_spec layout [125] .closing (Writer.write layout [123] .opening line).2
    rw [Writer.visit, Writer.visitEntries, Emit.seq_assoc, Emit.skip_seq, Emit.seq, hopen, hclose, List.append_assoc]
    exact (reads_emptyHash hgap').blank hgap
  | .hash ((key, v) :: entries), h, line => by
    obtain ⟨gap, hgap, hopen⟩ := write_spec layout [123] .opening line
    obtain ⟨gap', gap'', text, hgap', hgap'', hv, hentry⟩ :=
      visitEntry_spec layout key (reads_visit layout v h.2.1) (Writer.write layout [123] .opening line).2
    have htail := readsMembers_visit layout entries h.2.2
      (Writer.visitEntry layout (key, v) (Writer.write layout [123] .opening line).2).2
    rw [Writer.visit, Writer.visitEntries, Writer.separate, if_pos rfl, Emit.skip_seq, Emit.seq_assoc,
      Emit.seq_assoc, Emit.seq, hopen, List.append_assoc]
    refine Reads.blank hgap ?_
    rw [Emit.seq, hentry]
    exact reads_hash hgap' hgap'' hv htail h.1

theorem readsTail_visit (layout : Layout) : ∀ elements, RepresentableElements elements → ∀ line,
    ReadsTail elements
      ((Writer.visitElements layout false elements).seq (Writer.write layout [93] .closing) line).1
  | [], _, line => by
    obtain ⟨gap, hgap, hclose⟩ := write_spec layout [93] .closing line
    rw [Writer.visitElements, Emit.skip_seq, hclose]
    exact readsTail_close hgap
  | v :: elements, h, line => by
    obtain ⟨gap, hgap, hcomma⟩ := write_spec layout [44] .separator line
    have hv := reads_visit layout v h.1 (Writer.write layout [44] .separator line).2
    have htail := readsTail_visit layout elements h.2
      (Writer.visit layout v (Writer.write layout [44] .separator line).2).2
    rw [Writer.visitElements, Writer.separate, if_neg Bool.false_ne_true, Emit.seq_assoc, Emit.seq_assoc, Emit.seq,
      hcomma, Emit.seq, ← List.append_assoc]
    exact ReadsTail.comma hgap hv htail

theorem readsMembers_visit (layout : Layout) : ∀ entries, RepresentableEntries entries → ∀ line,
    ReadsMembers entries
      ((Writer.visitEntries layout false entries).seq (Writer.write layout [125] .closing) line).1
  | [], _, line => by
    obtain ⟨gap, hgap, hclose⟩ := write_spec layout [125] .closing line
    rw [Writer.visitEntries, Emit.skip_seq, hclose]
    exact readsMembers_close hgap
  | (key, v) :: entries, h, line => by
    obtain ⟨gap, hgap, hcomma⟩ := write_spec layout [44] .separator line
    obtain ⟨gap', gap'', text, hgap', hgap'', hv, hentry⟩ :=
      visitEntry_spec layout key (reads_visit layout v h.1) (Writer.write layout [44] .separator line).2
    have htail := readsMembers_visit layout entries h.2
      (Writer.visitEntry layout (key, v) (Writer.write layout [44] .separator line).2).2
    rw [Writer.visitEntries, Writer.separate, if_neg Bool.false_ne_true, Emit.seq_assoc, Emit.seq_assoc, Emit.seq,
      hcomma, Emit.seq, hentry, ← List.append_assoc]
    exact ReadsMembers.comma hgap hgap' hgap'' hv htail

end

/-- **Round trip.** What the writer writes for a representable value, in any layout, the parser reads back as that
value. -/
theorem parseComplete_text (layout : Layout) (v : Value) (hv : Representable v) :
    parseComplete (Writer.text layout v) = some (.ok v) := by
  have hreads : Reads v (Writer.text layout v) := reads_visit layout v hv ⟨0, 0, false⟩
  have hparse := hreads.parse (2 * (Writer.text layout v).length + 1) [] delimited_nil
    (by rw [List.append_nil])
  rw [List.append_nil] at hparse
  rw [parseComplete, hparse]
  rfl

end

/-- A parser of a stream without a name that knows no floats. -/
@[reducible] def plainParser : ParserClass := ⟨[], fun _ => none⟩

/-- An indented hash with an empty vector, a control character in a name and the least integer. -/
theorem parseComplete_text_hash :
    let v : Value := .hash [([27, 34], .vector []), ([], .vector [.integer (-2147483648), .null, .boolean true])]
    Representable v ∧
      @parseComplete plainParser (Writer.text ⟨0, 4⟩ v) = some (.ok v) := by
  intro v
  have hv : Representable v := by
    simp only [v, Representable, RepresentableEntries, RepresentableEntry, RepresentableElements]
    decide
  exact ⟨hv, @parseComplete_text plainParser ⟨0, 4⟩ v hv⟩

end Afl.Io.Json
