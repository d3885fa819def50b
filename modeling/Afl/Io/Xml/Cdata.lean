import Afl.Io.Xml.Positions
import Afl.Io.Xml.Tokens

/-!
# Unparsed character data

`<![CDATA[...]]>`. The loop over the content withholds up to two brackets, which are the end of the section if a `>`
follows and belong to the text otherwise.
-/

namespace Afl.Io.Xml

open Charset Input

/-! ### The brackets -/

theorem not_infix_cons {α : Type} {p t : List α} {a : α} (h : ¬p <:+: a :: t) : ¬p <:+: t :=
  fun hinside => h (hinside.trans (List.suffix_cons a t).isInfix)

theorem unparsed_append {numRBrack : Nat} (hle : numRBrack ≤ 2) {t : List Unichar}
    (ht : ¬[93, 93, 62] <:+: List.replicate numRBrack 93 ++ t) (cs : List Unichar) :
    unparsed numRBrack (t ++ 93 :: 93 :: 62 :: cs) = (List.replicate numRBrack 93 ++ t, cs) := by
  induction t generalizing numRBrack with
  | nil =>
    obtain rfl | rfl | rfl : numRBrack = 0 ∨ numRBrack = 1 ∨ numRBrack = 2 := by omega
    all_goals rfl
  | cons ch t ih =>
    have hrest : ¬[93, 93, 62] <:+: List.replicate 0 93 ++ t := fun hinside =>
      ht (hinside.trans ((List.suffix_cons ch t).trans (List.suffix_append _ _)).isInfix)
    have hplain := ih (Nat.zero_le 2) hrest
    obtain rfl | rfl | rfl : numRBrack = 0 ∨ numRBrack = 1 ∨ numRBrack = 2 := by omega
    · by_cases hbracket : ch = 93
      · subst hbracket
        exact ih (by decide) ht
      · rw [List.cons_append, unparsed, if_pos rfl, if_neg hbracket, hplain]
        rfl
    · by_cases hbracket : ch = 93
      · subst hbracket
        exact ih (by decide) ht
      · rw [List.cons_append, unparsed, if_neg (by decide), if_pos rfl, if_neg hbracket, hplain]
        rfl
    · have hgt : ch ≠ 62 := by
        rintro rfl
        exact ht (List.prefix_append [93, 93, 62] t).isInfix
      by_cases hbracket : ch = 93
      · subst hbracket
        -- the third bracket belongs to the text, and two are withheld again
        have hmore := ih (Nat.le_refl 2) (not_infix_cons ht)
        rw [List.cons_append, unparsed, if_neg (by decide), if_neg (by decide), if_neg (by decide), if_pos rfl, hmore]
        rfl
      · rw [List.cons_append, unparsed, if_neg (by decide), if_neg (by decide), if_neg hgt, if_neg hbracket, hplain]
        rfl

namespace Reader

variable {env : Environment} {fuel : Nat} {s u : Reader} {i j : Input} {mode : WhitespaceMode} {t cs : List Unichar}

/-! ### The token -/

/-- What stands between `<![` and the content. -/
def cdata : List Unichar := [67, 68, 65, 84, 65]

def cdataEnd : List Unichar := [93, 93, 62]

theorem readSection_cdata (hi : i.Settled) (h : i.ahead = 91 :: (cdata ++ 91 :: (t ++ cdataEnd ++ cs)))
    (ht : ¬cdataEnd <:+: t) (s : Reader) :
    ∃ j, readSection s i = (.text, { s with value := Utf8.appendAll 0 t, input := j }) ∧ Reaches i cs j := by
  have hbracket := readNextChar_cons hi h
  obtain ⟨j₁, hname, hj₁⟩ := readCharacterSequence_reaches (~~~(lBracketChar ||| processQuotes)) hbracket.settled
  rw [hbracket.ahead, sequence_append (List.forall_iff_forall_mem.mp (by decide)) (by decide) (by decide)] at hname hj₁
  have hopen := readNextChar_cons hj₁.settled hj₁.ahead
  obtain ⟨j₂, hcontent, hj₂⟩ := unparsedLoop_reaches 0 hopen.settled hopen.ahead
  have hunparsed : unparsed 0 (t ++ cdataEnd ++ cs) = (t, cs) := by
    rw [List.append_assoc]
    exact unparsed_append (Nat.zero_le 2) ht cs
  rw [hunparsed] at hcontent hj₂
  refine ⟨j₂, ?_, hbracket.trans (hj₁.trans (hopen.trans hj₂))⟩
  unfold readSection
  simp only [hname]
  rw [if_pos (by decide), readUnparsedCharacterData, hcontent]

def cdataSection (t : List Unichar) : List Unichar := 60 :: 33 :: 91 :: (cdata ++ 91 :: (t ++ cdataEnd))

theorem token_cdata (hs : Stands s .main mode (cdataSection t ++ cs)) (ht : ¬cdataEnd <:+: t) :
    ∃ j, (∀ env fuel, readNextToken env fuel s =
        some (.text, { s with tagPos := s.input.charPos, value := Utf8.appendAll 0 t, input := j })) ∧
      Reaches s.input cs j := by
  have hmarkup := markup_cons hs.settled hs.ahead (by decide)
  obtain ⟨hhave, hcurrent, -⟩ := ahead_eq_cons.mp hmarkup.ahead
  have hbang := readNextChar_cons hmarkup.settled hmarkup.ahead
  obtain ⟨hhave', hcurrent', -⟩ := ahead_eq_cons.mp hbang.ahead
  have hsection : 91 :: (cdata ++ 91 :: (t ++ cdataEnd) ++ cs) = 91 :: (cdata ++ 91 :: (t ++ cdataEnd ++ cs)) := by
    rw [List.append_assoc, List.cons_append]
  obtain ⟨j, hread, hj⟩ := readSection_cdata hbang.settled (hbang.ahead.trans hsection) ht s.marked
  refine ⟨j, fun env fuel => ?_, hmarkup.trans (hbang.trans hj)⟩
  rw [readNextToken_markup hs.state hs.ahead]
  unfold readMarkup
  simp only [marked, hhave, hcurrent]
  show readDeclaration fuel s.marked (skip whitespaceChar s.input.readNextChar) = _
  unfold readDeclaration
  simp only [hhave', hcurrent', hread]
  rfl

end Reader

/-! ### The bytes -/

namespace Input

variable {encoding : Encoding} {codepage : Option Codepage} {i j : Input} {cs : List Unichar} {ch : Unichar}
  {data rest : Bytes}

/-- The bytes spell the characters, whatever follows them. -/
inductive Spells (encoding : Encoding) (codepage : Option Codepage) : List Unichar → Bytes → Prop
  | nil : Spells encoding codepage [] []
  | cons {ch : Unichar} {cs : List Unichar} {a data : Bytes}
      (hch : ∀ r, nextChar encoding codepage (a ++ r) = some (ch, r)) (h : Spells encoding codepage cs data) :
      Spells encoding codepage (ch :: cs) (a ++ data)

theorem Spells.append {cs cs' : List Unichar} {data data' : Bytes} (h : Spells encoding codepage cs data)
    (h' : Spells encoding codepage cs' data') : Spells encoding codepage (cs ++ cs') (data ++ data') := by
  induction h with
  | nil => exact h'
  | cons hch _ ih =>
    rw [List.append_assoc]
    exact .cons hch ih

/-- The reader is about to read the bytes: the current character is the first of them. -/
def Before (data : Bytes) (i : Input) : Prop :=
  match nextChar i.encoding i.codepage data with
  | none => i.haveCurrentCharacter = false ∧ i.rest = []
  | some (ch, r) => i.haveCurrentCharacter = true ∧ i.currentCharacter = ch ∧ i.rest = r

theorem before_none (hnext : nextChar i.encoding i.codepage data = none) :
    Before data i ↔ i.haveCurrentCharacter = false ∧ i.rest = [] := by
  rw [Before, hnext]

theorem before_some {r : Bytes} (hnext : nextChar i.encoding i.codepage data = some (ch, r)) :
    Before data i ↔ i.haveCurrentCharacter = true ∧ i.currentCharacter = ch ∧ i.rest = r := by
  rw [Before, hnext]

theorem before_readNextChar (i : Input) : Before i.rest i.readNextChar := by
  obtain ⟨hencoding, hcodepage, hnext⟩ := readNextChar_advances i
  rw [Before, hencoding, hcodepage]
  cases hchar : nextChar i.encoding i.codepage i.rest with
  | none =>
    rw [hchar] at hnext
    exact ⟨hnext.1, hnext.2.2⟩
  | some next =>
    rw [hchar] at hnext
    exact hnext

theorem Before.settled (h : Before data i) : i.Settled := by
  intro hended
  cases hnext : nextChar i.encoding i.codepage data with
  | none => exact ((before_none hnext).mp h).2
  | some next =>
    obtain ⟨hhave, -⟩ := (before_some hnext).mp h
    exact absurd (hhave.symm.trans hended) (by decide)

theorem Before.ahead (h : Before data i) : i.ahead = decode i.encoding i.codepage data := by
  cases hnext : nextChar i.encoding i.codepage data with
  | none => rw [decode_none hnext, ahead_eq_nil.mpr ((before_none hnext).mp h).1]
  | some next =>
    obtain ⟨hhave, hcurrent, hrest⟩ := (before_some hnext).mp h
    rw [decode_some hnext]
    exact ahead_eq_cons.mpr ⟨hhave, hcurrent, by rw [following, hrest]⟩

theorem Before.next {r : Bytes} (h : Before data i) (hnext : nextChar i.encoding i.codepage data = some (ch, r)) :
    Before r i.readNextChar := by
  obtain ⟨-, -, rfl⟩ := (before_some hnext).mp h
  exact before_readNextChar i

theorem iterate_encoding (i : Input) (n : Nat) :
    (readNextChar^[n] i).encoding = i.encoding ∧ (readNextChar^[n] i).codepage = i.codepage := by
  induction n with
  | zero => exact ⟨rfl, rfl⟩
  | succ n ih =>
    rw [Function.iterate_succ_apply', readNextChar_encoding, readNextChar_codepage]
    exact ih

theorem Before.iterate (hspells : Spells i.encoding i.codepage cs data) (h : Before (data ++ rest) i) :
    Before rest (readNextChar^[cs.length] i) := by
  generalize hencoding : i.encoding = encoding at hspells
  generalize hcodepage : i.codepage = codepage at hspells
  induction hspells generalizing i with
  | nil => exact h
  | cons hch _ ih =>
    rw [List.append_assoc] at h
    rw [List.length_cons, Function.iterate_succ_apply]
    exact ih (h.next (by rw [hencoding, hcodepage, hch])) (by rw [readNextChar_encoding, hencoding])
      (by rw [readNextChar_codepage, hcodepage])

theorem Spells.decode (h : Spells encoding codepage cs data) (rest : Bytes) :
    decode encoding codepage (data ++ rest) = cs ++ decode encoding codepage rest := by
  induction h with
  | nil => rfl
  | cons hch _ ih => rw [List.append_assoc, decode_some (hch _), ih, List.cons_append]

theorem iterate_ahead (hi : i.Settled) (n : Nat) :
    (readNextChar^[n] i).ahead = i.ahead.drop n ∧ (readNextChar^[n] i).Settled := by
  induction n with
  | zero => exact ⟨rfl, hi⟩
  | succ n ih =>
    have hnext := readNextChar_reaches ih.2
    rw [Function.iterate_succ_apply', hnext.ahead, ih.1, List.tail_drop]
    exact ⟨rfl, hnext.settled⟩

theorem Before.of_ahead (hspells : Spells i.encoding i.codepage cs data) (h : Before (data ++ rest) i) {n : Nat}
    (hahead : (readNextChar^[n] i).ahead = decode i.encoding i.codepage rest) : Before rest (readNextChar^[n] i) := by
  obtain ⟨hencoding, hcodepage⟩ := iterate_encoding i n
  obtain ⟨hdrop, hsettled⟩ := iterate_ahead h.settled n
  cases hnext : nextChar i.encoding i.codepage rest with
  | none =>
    rw [decode_none hnext] at hahead
    have hended := ahead_eq_nil.mp hahead
    exact (before_none (by rw [hencoding, hcodepage, hnext])).mpr ⟨hended, hsettled hended⟩
  | some next =>
    have hpos : 0 < (decode i.encoding i.codepage rest).length := by
      rw [decode_some hnext]
      exact Nat.zero_lt_succ _
    have hlength : n = cs.length := by
      have hcount := congrArg List.length (hdrop.symm.trans hahead)
      rw [h.ahead, hspells.decode, List.length_drop, List.length_append] at hcount
      omega
    rw [hlength]
    exact h.iterate hspells

theorem Before.alike (h : Before data i) (h' : Before data j) (hencoding : j.encoding = i.encoding)
    (hcodepage : j.codepage = i.codepage) (hne : decode i.encoding i.codepage data ≠ []) : Alike i j := by
  cases hnext : nextChar i.encoding i.codepage data with
  | none => exact absurd (decode_none hnext) hne
  | some next =>
    obtain ⟨hhave, hcurrent, hrest⟩ := (before_some hnext).mp h
    obtain ⟨hhave', hcurrent', hrest'⟩ := (before_some (by rw [hencoding, hcodepage, hnext])).mp h'
    exact ⟨hrest'.trans hrest.symm, hencoding, hcodepage, hhave'.trans hhave.symm, hcurrent'.trans hcurrent.symm⟩

end Input

namespace Reader

variable {env : Environment} {fuel : Nat} {s u : Reader} {mode : WhitespaceMode} {encoding : Encoding}
  {codepage : Option Codepage} {t : List Unichar} {data rest : Bytes} {items : List Item} {r : Reader}

/-- The reader is between two tokens and about to read the bytes. -/
structure Poised (s : Reader) (mode : WhitespaceMode) (encoding : Encoding) (codepage : Option Codepage)
    (data : Bytes) : Prop where
  state : s.state = .main
  mode : s.whitespaceMode = mode
  encoding : s.input.encoding = encoding
  codepage : s.input.codepage = codepage
  before : Before data s.input

theorem Poised.stands (hs : Poised s mode encoding codepage data) :
    Stands s .main mode (decode encoding codepage data) :=
  ⟨hs.before.settled, hs.state, hs.mode, by rw [hs.before.ahead, hs.encoding, hs.codepage]⟩

theorem next_end (h : s.input.ahead = []) : (toBaseReader env (fuel + 1)).next s = some (.eof, s) := by
  have hread : readNext env (fuel + 1) s = some (.eof, s) := by
    rw [readNext, readNextToken_end h]
    rfl
  rw [next_eq_map, hread]
  rfl

theorem Poised.emits (hs : Poised s mode encoding codepage data) (hu : Poised u mode encoding codepage data)
    (h : Emits (toBaseReader env fuel).next s items r) : ∃ r', Emits (toBaseReader env fuel).next u items r' := by
  by_cases hended : decode encoding codepage data = []
  · -- both readers report the end, again and again
    have hboth : s.input.ahead = [] ∧ u.input.ahead = [] :=
      ⟨hs.stands.ahead.trans hended, hu.stands.ahead.trans hended⟩
    refine Emits.simulate (R := fun s u => s.input.ahead = [] ∧ u.input.ahead = []) ?_ hboth h
    intro s u item s' hsu hnext
    cases fuel with
    | zero => cases hnext
    | succ fuel =>
      rw [next_end hsu.1] at hnext
      cases hnext
      exact ⟨u, next_end hsu.2, hsu⟩
  · have halike : Alike s.input u.input := hs.before.alike hu.before (hu.encoding.trans hs.encoding.symm)
      (hu.codepage.trans hs.codepage.symm) (by rwa [hs.encoding, hs.codepage])
    exact along_emits ⟨halike, hu.mode.trans hs.mode.symm, hu.state.trans hs.state.symm,
      fun hne => absurd hs.state hne⟩ h

/-- **The tokens of the bytes.** Readers that are about to read the same bytes return the same tokens. -/
theorem Poised.sameTokens (hs : Poised s mode encoding codepage data) (hu : Poised u mode encoding codepage data)
    (fuel : Nat) (items : List Item) :
    (∃ r, Emits (toBaseReader env fuel).next s items r) ↔ ∃ r, Emits (toBaseReader env fuel).next u items r :=
  ⟨fun ⟨_, h⟩ => hs.emits hu h, fun ⟨_, h⟩ => hu.emits hs h⟩

/-- A section in any encoding: the token has the text, and the reader is about to read what follows. -/
theorem Poised.readNextToken_cdata {section' : Bytes} (hspells : Spells encoding codepage (cdataSection t) section')
    (hs : Poised s mode encoding codepage (section' ++ rest)) (ht : ¬cdataEnd <:+: t) :
    ∃ s', Poised s' mode encoding codepage rest ∧ s'.value = Utf8.appendAll 0 t ∧
      ∀ env fuel, readNextToken env fuel s = some (.text, s') := by
  have hstands := hs.stands
  rw [hspells.decode] at hstands
  obtain ⟨j, htoken, hj⟩ := token_cdata hstands ht
  have hiterate : ∃ n, j = readNextChar^[n] s.input :=
    readNextToken_keeps (P := fun i => ∃ n, i = readNextChar^[n] s.input)
      (fun ⟨n, hn⟩ => ⟨n + 1, by rw [hn, Function.iterate_succ_apply']⟩)
      (fun hpi => absurd (hs.state.symm.trans hpi) (by decide)) ⟨0, rfl⟩
      (htoken ⟨id, fun _ => none⟩ 0)
  obtain ⟨n, rfl⟩ := hiterate
  obtain ⟨hencoding, hcodepage⟩ := iterate_encoding s.input n
  have hbefore : Before rest (readNextChar^[n] s.input) :=
    Before.of_ahead (by rw [hs.encoding, hs.codepage]; exact hspells) hs.before
      (by rw [hj.ahead, hs.encoding, hs.codepage])
  exact ⟨{ s with tagPos := s.input.charPos, value := Utf8.appendAll 0 t, input := readNextChar^[n] s.input },
    ⟨hs.state, hs.mode, hencoding.trans hs.encoding, hcodepage.trans hs.codepage, hbefore⟩, rfl, htoken⟩

/-! ### Documents in UTF-8 -/

theorem spells_utf8 (codepage : Option Codepage) (ht : ∀ ch ∈ t, ch.toNat ≤ 0xFFFF) :
    Spells .utf8 codepage t (Utf8.appendAll 0 t) := by
  induction t with
  | nil => exact .nil
  | cons ch t ih =>
    obtain ⟨hch, hrest⟩ := List.forall_mem_cons.mp ht
    rw [appendAll_cons]
    exact .cons (nextChar_append hch codepage) (ih hrest)

theorem appendAll_ne_nil (ht : ∀ ch ∈ t, ch.toNat ≤ 0xFFFF) (hne : t ≠ []) : Utf8.appendAll 0 t ≠ [] := by
  intro hnil
  have hspells := (spells_utf8 none ht).decode []
  rw [hnil, List.nil_append, decode_none rfl, List.append_nil] at hspells
  exact hne hspells.symm

/-- A reader on a document that does not begin like a 16-bit encoding or with a byte order mark. -/
theorem poised_opened (mode : WhitespaceMode) (hdata : detect data = (.utf8, 0)) :
    Poised ((new ⟨data, 0⟩).setWhitespaceMode mode) mode .utf8 none data := by
  let i : Input :=
    { stream := ⟨data, 0⟩, buffer := [], bufferPos := 0, encoding := .utf8, codepage := none,
      haveCurrentCharacter := false, currentCharacter := 0, charPos := 0 }
  have hdetect : detect i.refillBuffer.buffer = (.utf8, 0) := (detect_take data).trans hdata
  have hencoding : i.refillBuffer.detectEncoding.encoding = .utf8 := by
    rw [detectEncoding, hdetect]
  have hrest : i.refillBuffer.detectEncoding.rest = data := by
    have hrefill : i.refillBuffer.rest = data := rest_refillBuffer rfl
    rw [detectEncoding, hdetect]
    exact hrefill
  have hbefore := before_readNextChar i.refillBuffer.detectEncoding
  rw [hrest] at hbefore
  exact ⟨rfl, rfl, (readNextChar_encoding _).trans hencoding, readNextChar_codepage _, hbefore⟩

/-- **CDATA is verbatim.** A reader that is about to read a section with the text `t` returns this text, if there is
any, and is then about to read what follows: it returns the tokens of that. -/
theorem cdata_verbatim (env : Environment) (hs : Poised s mode .utf8 codepage
      (lit "<![CDATA[" ++ Utf8.appendAll 0 t ++ lit "]]>" ++ rest))
    (ht : ∀ ch ∈ t, ch.toNat ≤ 0xFFFF) (hend : ¬[93, 93, 62] <:+: t) :
    ∃ s', Poised s' mode .utf8 codepage rest ∧
      (∀ fuel, (toBaseReader env (fuel + 1)).next s =
        if t = [] then (toBaseReader env fuel).next s' else some (.text (Utf8.appendAll 0 t), s')) ∧
      ∀ u, Poised u mode .utf8 codepage rest → ∀ fuel items,
        (∃ r, Emits (toBaseReader env fuel).next s' items r) ↔ ∃ r, Emits (toBaseReader env fuel).next u items r := by
  have hspells : Spells .utf8 codepage (cdataSection t) (lit "<![CDATA[" ++ Utf8.appendAll 0 t ++ lit "]]>") := by
    have hopen : Spells .utf8 codepage [60, 33, 91, 67, 68, 65, 84, 65, 91] (lit "<![CDATA[") :=
      spells_utf8 codepage (List.forall_iff_forall_mem.mp (by decide))
    have hclose : Spells .utf8 codepage cdataEnd (lit "]]>") :=
      spells_utf8 codepage (List.forall_iff_forall_mem.mp (by decide))
    have hsection := (hopen.append (spells_utf8 codepage ht)).append hclose
    rwa [List.append_assoc] at hsection
  obtain ⟨s', hs', hvalue, htoken⟩ := hs.readNextToken_cdata hspells hend
  refine ⟨s', hs', fun fuel => ?_, fun u hu => hs'.sameTokens hu⟩
  by_cases hempty : t = []
  · subst hempty
    have hignored : isIgnored .text s' = true := by
      rw [isIgnored, hvalue]
      rfl
    rw [if_pos rfl, next_eq_map, next_eq_map, readNext, htoken]
    simp only [hignored, if_true]
  · have hignored : isIgnored .text s' = false := by
      have hne := appendAll_ne_nil ht hempty
      rw [isIgnored, hvalue]
      simp [hne]
    rw [if_neg hempty, next_eq_map, readNext, htoken]
    simp only [hignored, Bool.false_eq_true, if_false, Option.map_some, item, Item.make, hvalue]

theorem cdata_verbatim_brackets :
    let data := lit "<![CDATA[" ++ Utf8.appendAll 0 [93, 93, 93, 0x20AC, 93] ++ lit "]]>" ++ lit "<b>"
    ∃ r, Emits (toBaseReader ⟨id, fun _ => none⟩ 2).next ((new ⟨data, 0⟩).setWhitespaceMode .allWS)
      [.text [93, 93, 93, 0xE2, 0x82, 0xAC, 93], .tagStart (lit "b")] r := by
  intro data
  have htag : (((toBaseReader ⟨id, fun _ => none⟩ 2).next ((new ⟨lit "<b>", 0⟩).setWhitespaceMode .allWS)).map
      Prod.fst) = some (.tagStart (lit "b")) := by decide +kernel
  obtain ⟨⟨item, u⟩, hu, rfl⟩ := Option.map_eq_some_iff.mp htag
  have hpoised : Poised ((new ⟨data, 0⟩).setWhitespaceMode .allWS) .allWS .utf8 none data :=
    poised_opened .allWS (by decide)
  obtain ⟨s', -, hnext, hrest⟩ := cdata_verbatim ⟨id, fun _ => none⟩ hpoised
    (List.forall_iff_forall_mem.mp (by decide)) (by decide)
  obtain ⟨r, hr⟩ := (hrest _ (poised_opened .allWS (by decide)) 2 _).mpr ⟨u, .single hu⟩
  exact ⟨r, .cons (hnext 1) hr⟩

end Reader

end Afl.Io.Xml
