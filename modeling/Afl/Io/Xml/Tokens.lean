import Afl.Io.Xml.Node
import Afl.Io.Xml.Termination

/-!
# The tokens of written nodes

What the XML reader makes of what the writer writes, piece by piece and then for all nodes.
-/

namespace Afl.Io.Xml

open Charset Input

def reserved : List Unichar := [33, 34, 39, 47, 60, 61, 62, 63]

/-- Neither white space nor a character that means something to the reader. -/
def Plain (ch : Unichar) : Prop := isWhitespace ch = false ∧ ch ∉ reserved

theorem plain_of_inRanges {ch : Unichar} (h : inRanges nameRanges ch = true) : Plain ch := by
  constructor
  · rw [Bool.eq_false_iff]
    intro hspace
    simp only [isWhitespace, Bool.or_eq_true, decide_eq_true_eq, beq_iff_eq, UInt32.le_iff_toNat_le,
      ← UInt32.toNat_inj, UInt32.reduceToNat] at hspace
    simp only [inRanges, nameRanges, nameStartRanges, List.cons_append, List.nil_append, List.any_cons, List.any_nil,
      Bool.or_eq_true, Bool.and_eq_true, decide_eq_true_eq, Bool.or_false] at h
    omega
  · intro hreserved
    simp only [reserved, List.mem_cons, List.not_mem_nil, or_false] at hreserved
    rcases hreserved with rfl | rfl | rfl | rfl | rfl | rfl | rfl | rfl <;> revert h <;> decide

theorem Plain.ne {ch c : Unichar} (h : Plain ch) (hc : c ∈ reserved) : ch ≠ c := by
  rintro rfl
  exact h.2 hc

theorem charClass_of_plain {ch : Unichar} (h : Plain ch) :
    charClass ch = minusChar ∨ charClass ch = lBracketChar ∨ charClass ch = anyChar := by
  obtain ⟨hspace, hreserved⟩ := h
  simp only [reserved, List.mem_cons, List.not_mem_nil, or_false, not_or] at hreserved
  unfold charClass
  rw [hspace]
  simp only [hreserved, Bool.false_eq_true, if_false]
  split_ifs
  · exact .inl rfl
  · exact .inr (.inl rfl)
  · exact .inr (.inr rfl)

/-- A class that excludes reserved characters only. -/
def AcceptsPlain (acceptClasses : UInt32) : Prop :=
  hasFlag acceptClasses minusChar = true ∧ hasFlag acceptClasses lBracketChar = true ∧
    hasFlag acceptClasses anyChar = true

instance (acceptClasses : UInt32) : Decidable (AcceptsPlain acceptClasses) := inferInstanceAs (Decidable (_ ∧ _))

theorem AcceptsPlain.accepts {acceptClasses : UInt32} (haccepts : AcceptsPlain acceptClasses) {ch : Unichar}
    (h : Plain ch) : hasFlag acceptClasses (charClass ch) = true ∧ ch ≠ 34 ∧ ch ≠ 39 := by
  refine ⟨?_, ?_, ?_⟩
  · rcases charClass_of_plain h with hclass | hclass | hclass
    · rw [hclass]
      exact haccepts.1
    · rw [hclass]
      exact haccepts.2.1
    · rw [hclass]
      exact haccepts.2.2
  · rintro rfl
    exact h.2 (by decide)
  · rintro rfl
    exact h.2 (by decide)

namespace Reader

variable {env : Environment} {i : Input} {s : Reader} {fuel : Nat} {name value cs : List Unichar} {stop : Unichar}

theorem skip_whitespace_cons (hi : i.Settled) (h : i.ahead = stop :: cs) (hstop : isWhitespace stop = false) :
    Reaches i (stop :: cs) (skip whitespaceChar i) := by
  have hskip := skip_reaches whitespaceChar hi
  rwa [h, sequence_whitespaceChar, List.dropWhile_cons_of_neg (by simp [hstop])] at hskip

theorem skip_whitespace_name (hi : i.Settled) (h : i.ahead = name ++ cs) (hne : name ≠ []) (hname : ∀ c ∈ name, Plain c) :
    Reaches i (name ++ cs) (skip whitespaceChar i) := by
  obtain ⟨c, name', rfl⟩ := List.exists_cons_of_ne_nil hne
  exact skip_whitespace_cons hi h (hname c List.mem_cons_self).1

theorem readName (acceptClasses : UInt32) (hi : i.Settled) (h : i.ahead = name ++ stop :: cs)
    (hname : ∀ c ∈ name, Plain c) (haccepts : AcceptsPlain acceptClasses)
    (hstop : hasFlag acceptClasses (charClass stop) = false) (hquote : stop ≠ 34 ∧ stop ≠ 39) :
    ∃ count j, i.readCharacterSequence acceptClasses = (count, Utf8.appendAll 0 name, j) ∧ Reaches i (stop :: cs) j := by
  obtain ⟨j, hread, hreaches⟩ := readCharacterSequence_reaches acceptClasses hi
  rw [h, sequence_append (fun c hc => haccepts.accepts (hname c hc)) hstop hquote] at hread hreaches
  exact ⟨_, j, hread, hreaches⟩

theorem readQuoted (acceptClasses : UInt32) (hi : i.Settled) (h : i.ahead = 34 :: (value ++ 34 :: stop :: cs))
    (hquotes : hasFlag acceptClasses processQuotes = true) (hvalue : 34 ∉ value)
    (hstop : hasFlag acceptClasses (charClass stop) = false) (hquote : stop ≠ 34 ∧ stop ≠ 39) :
    ∃ count j, (skip whitespaceChar i).readCharacterSequence acceptClasses = (count, Utf8.appendAll 0 value, j) ∧
      Reaches i (stop :: cs) j := by
  have hskip := skip_whitespace_cons hi h (by decide)
  obtain ⟨j, hread, hreaches⟩ := readCharacterSequence_reaches acceptClasses hskip.settled
  rw [hskip.ahead, sequence_quoted hquotes hvalue hstop hquote] at hread hreaches
  exact ⟨_, j, hread, hskip.trans hreaches⟩

/-! ### Where a reader stands -/

/-- The state and the mode of a reader, and the characters ahead. -/
structure Stands (s : Reader) (state : State) (mode : WhitespaceMode) (cs : List Unichar) : Prop where
  settled : s.input.Settled
  state : s.state = state
  mode : s.whitespaceMode = mode
  ahead : s.input.ahead = cs

variable (env fuel) in
/-- A call of `readNextToken`, and what can be learnt about the token. -/
def tokenNext (s : Reader) : Option (Item × Reader) :=
  match readNextToken env fuel s with
  | none => none
  | some (token, s) => some (.make token s.tag s.name s.value, s)

theorem tokenNext_of_token {s' : Reader} {t : Token} (h : readNextToken env fuel s = some (t, s')) :
    tokenNext env fuel s = some (.make t s'.tag s'.name s'.value, s') := by
  rw [tokenNext, h]

variable (env fuel) {mode : WhitespaceMode}

/-! ### Tokens of tags -/

theorem markup_cons {ch : Unichar} (hs : s.input.Settled) (h : s.input.ahead = 60 :: ch :: cs)
    (hch : isWhitespace ch = false) : Reaches s.input (ch :: cs) (skip whitespaceChar s.input.readNextChar) := by
  have hmarkup := markup_reaches hs h
  rwa [List.dropWhile_cons_of_neg (by simp [hch])] at hmarkup

theorem token_tagStart (hs : Stands s .main mode (60 :: (name ++ stop :: cs))) (hne : name ≠ [])
    (hname : ∀ c ∈ name, Plain c) (hstop : stop = 32 ∨ stop = 47 ∨ stop = 62) :
    ∃ s', tokenNext env fuel s = some (.tagStart (Utf8.appendAll 0 name), s') ∧
      Stands s' .inTag mode (stop :: cs) ∧ s'.tag = Utf8.appendAll 0 name := by
  obtain ⟨c, name', rfl⟩ := List.exists_cons_of_ne_nil hne
  have hc := hname c List.mem_cons_self
  have hmarkup := markup_cons hs.settled hs.ahead hc.1
  obtain ⟨hhave, hcurrent, -⟩ := ahead_eq_cons.mp hmarkup.ahead
  obtain ⟨count, j, hread, hj⟩ := readName (~~~(whitespaceChar ||| gtChar ||| slashChar)) hmarkup.settled hmarkup.ahead
    hname (by decide) (by rcases hstop with rfl | rfl | rfl <;> decide) (by rcases hstop with rfl | rfl | rfl <;> decide)
  have htoken : readNextToken env fuel s =
      some (.tagStart, { s.marked with tag := Utf8.appendAll 0 (c :: name'), state := .inTag, input := j }) := by
    rw [readNextToken_markup hs.state hs.ahead]
    unfold readMarkup
    simp only [marked, hhave, hcurrent, hc.ne (c := 63) (by decide), hc.ne (c := 47) (by decide),
      hc.ne (c := 33) (by decide), readTagStart, hread]
    rfl
  exact ⟨_, tokenNext_of_token htoken, ⟨hj.settled, rfl, hs.mode, hj.ahead⟩, rfl⟩

theorem token_endTag (hs : Stands s .main mode (60 :: 47 :: (name ++ 62 :: cs))) (hne : name ≠ [])
    (hname : ∀ c ∈ name, Plain c) :
    ∃ s', tokenNext env fuel s = some (.tagEnd (Utf8.appendAll 0 name), s') ∧ Stands s' .main mode cs := by
  have hmarkup := markup_cons hs.settled hs.ahead (by decide)
  obtain ⟨hhave, hcurrent, -⟩ := ahead_eq_cons.mp hmarkup.ahead
  have hnext := readNextChar_cons hmarkup.settled hmarkup.ahead
  have hspace := skip_whitespace_name hnext.settled hnext.ahead hne hname
  obtain ⟨count, j, hread, hj⟩ := readName (~~~(whitespaceChar ||| gtChar)) hspace.settled hspace.ahead hname (by decide)
    (by decide) (by decide)
  have hskip := skipTag_reaches hj.settled
  rw [hj.ahead, sequence_of_not (by decide) (by decide)] at hskip
  have htoken : readNextToken env fuel s =
      some (.tagEnd, { s.marked with tag := Utf8.appendAll 0 name, input := skipTag j }) := by
    rw [readNextToken_markup hs.state hs.ahead]
    unfold readMarkup
    simp only [marked, hhave, hcurrent, readEndTag, hread]
    rfl
  exact ⟨_, tokenNext_of_token htoken, hskip.settled, hs.state, hs.mode, hskip.ahead⟩

theorem token_emptyTag (hs : Stands s .inTag mode (47 :: 62 :: cs)) :
    ∃ s', tokenNext env fuel s = some (.tagEnd s.tag, s') ∧ Stands s' .main mode cs := by
  have hspace := skip_whitespace_cons hs.settled hs.ahead (by decide)
  obtain ⟨hhave, hcurrent, -⟩ := ahead_eq_cons.mp hspace.ahead
  have hskip := skipTag_reaches hspace.settled
  have hslash : sequence (~~~gtChar) 0 ([47] ++ 62 :: cs) = ([47], 62 :: cs) :=
    sequence_append (List.forall_mem_singleton.mpr (by decide)) (by decide) (by decide)
  rw [hspace.ahead, ← List.singleton_append, hslash] at hskip
  have htoken : readNextToken env fuel s =
      some (.tagEnd, { s.marked with state := .main, input := skipTag (skip whitespaceChar s.input) }) := by
    rw [readNextToken_inTag hs.state hs.ahead]
    unfold readInTag
    simp only [marked, hhave, hcurrent]
    rfl
  exact ⟨_, tokenNext_of_token htoken, hskip.settled, rfl, hs.mode, hskip.ahead⟩

theorem token_tagClose (hs : Stands s .inTag mode (62 :: cs)) :
    ∃ s', tokenNext env fuel s = some (.null, s') ∧ Stands s' .main mode cs := by
  have hspace := skip_whitespace_cons hs.settled hs.ahead (by decide)
  obtain ⟨hhave, hcurrent, -⟩ := ahead_eq_cons.mp hspace.ahead
  have hnext := readNextChar_cons hspace.settled hspace.ahead
  have htoken : readNextToken env fuel s =
      some (.null, { s.marked with state := .main, input := (skip whitespaceChar s.input).readNextChar }) := by
    rw [readNextToken_inTag hs.state hs.ahead]
    unfold readInTag
    simp only [marked, hhave, hcurrent]
    rfl
  exact ⟨_, tokenNext_of_token htoken, hnext.settled, rfl, hs.mode, hnext.ahead⟩

theorem readAttributeName (acceptClasses : UInt32) (hs : s.input.Settled)
    (h : s.input.ahead = 32 :: (name ++ 61 :: cs)) (hne : name ≠ []) (hname : ∀ c ∈ name, Plain c)
    (haccepts : AcceptsPlain acceptClasses) (hstop : hasFlag acceptClasses (charClass 61) = false) :
    ∃ ch count j, Plain ch ∧ (skip whitespaceChar s.input).haveCurrentCharacter = true ∧
      (skip whitespaceChar s.input).currentCharacter = ch ∧
      (skip whitespaceChar s.input).readCharacterSequence acceptClasses = (count, Utf8.appendAll 0 name, j) ∧
      (skip whitespaceChar j).haveCurrentCharacter = true ∧ (skip whitespaceChar j).currentCharacter = 61 ∧
      Reaches s.input cs (skip whitespaceChar j).readNextChar := by
  have hspace := skip_reaches whitespaceChar hs
  rw [h, sequence_whitespaceChar, List.dropWhile_cons_of_pos (by decide)] at hspace
  obtain ⟨c, name', rfl⟩ := List.exists_cons_of_ne_nil hne
  have hc := hname c List.mem_cons_self
  rw [List.cons_append, List.dropWhile_cons_of_neg (by simp [hc.1])] at hspace
  obtain ⟨hhave, hcurrent, -⟩ := ahead_eq_cons.mp hspace.ahead
  obtain ⟨count, j, hread, hj⟩ := readName acceptClasses hspace.settled hspace.ahead hname haccepts hstop (by decide)
  have hspace' := skip_whitespace_cons hj.settled hj.ahead (by decide)
  obtain ⟨hhave', hcurrent', -⟩ := ahead_eq_cons.mp hspace'.ahead
  have hnext := readNextChar_cons hspace'.settled hspace'.ahead
  exact ⟨c, count, j, hc, hhave, hcurrent, hread, hhave', hcurrent', ((hspace.trans hj).trans hspace').trans hnext⟩

theorem token_tagAttribute
    (hs : Stands s .inTag mode (32 :: (name ++ 61 :: 34 :: (value ++ 34 :: stop :: cs)))) (hne : name ≠ [])
    (hname : ∀ c ∈ name, Plain c) (hvalue : 34 ∉ value) (hstop : stop = 32 ∨ stop = 47 ∨ stop = 62) :
    ∃ s', tokenNext env fuel s = some (.tagAttribute s.tag (Utf8.appendAll 0 name)
          (expandEntities env.expandEntityReference (Utf8.appendAll 0 value)), s') ∧
      Stands s' .inTag mode (stop :: cs) ∧ s'.tag = s.tag := by
  obtain ⟨ch, count, j, hch, hhave, hcurrent, hread, hhave', hcurrent', hj⟩ :=
    readAttributeName (~~~(whitespaceChar ||| eqChar ||| gtChar ||| slashChar)) hs.settled hs.ahead hne hname (by decide)
      (by decide)
  obtain ⟨count', k, hread', hk⟩ := readQuoted (~~~(whitespaceChar ||| gtChar ||| slashChar)) hj.settled hj.ahead
    (by decide) hvalue (by rcases hstop with rfl | rfl | rfl <;> decide) (by rcases hstop with rfl | rfl | rfl <;> decide)
  have htoken : readNextToken env fuel s =
      some (.tagAttribute, { s.marked with
        name := Utf8.appendAll 0 name
        value := expandEntities env.expandEntityReference (Utf8.appendAll 0 value)
        input := k }) := by
    rw [readNextToken_inTag hs.state hs.ahead]
    unfold readInTag
    simp only [marked, hhave, hcurrent, hch.ne (c := 47) (by decide), hch.ne (c := 62) (by decide), hread, hhave',
      hcurrent', hread']
    rfl
  exact ⟨_, tokenNext_of_token htoken, ⟨hk.settled, hs.state, hs.mode, hk.ahead⟩, rfl⟩

/-! ### Tokens of processing instructions -/

theorem token_piStart (hs : Stands s .main mode (60 :: 63 :: (name ++ stop :: cs))) (hne : name ≠ [])
    (hname : ∀ c ∈ name, Plain c) (hstop : stop = 32 ∨ stop = 63) :
    ∃ s', tokenNext env fuel s = some (.piStart (Utf8.appendAll 0 name), s') ∧
      Stands s' .inPI mode (stop :: cs) ∧ s'.tag = Utf8.appendAll 0 name := by
  have hmarkup := markup_cons hs.settled hs.ahead (by decide)
  obtain ⟨hhave, hcurrent, -⟩ := ahead_eq_cons.mp hmarkup.ahead
  have hnext := readNextChar_cons hmarkup.settled hmarkup.ahead
  have hspace := skip_whitespace_name hnext.settled hnext.ahead hne hname
  obtain ⟨count, j, hread, hj⟩ := readName (~~~(whitespaceChar ||| gtChar ||| quesChar)) hspace.settled hspace.ahead hname
    (by decide) (by rcases hstop with rfl | rfl <;> decide) (by rcases hstop with rfl | rfl <;> decide)
  have htoken : readNextToken env fuel s =
      some (.piStart, { s.marked with tag := Utf8.appendAll 0 name, state := .inPI, input := j }) := by
    rw [readNextToken_markup hs.state hs.ahead]
    unfold readMarkup
    simp only [marked, hhave, hcurrent, readPIStart, hread]
    rfl
  exact ⟨_, tokenNext_of_token htoken, ⟨hj.settled, rfl, hs.mode, hj.ahead⟩, rfl⟩

theorem token_piAttribute
    (hs : Stands s .inPI mode (32 :: (name ++ 61 :: 34 :: (value ++ 34 :: stop :: cs)))) (hne : name ≠ [])
    (hname : ∀ c ∈ name, Plain c) (hvalue : 34 ∉ value) (hstop : stop = 32 ∨ stop = 63)
    (hencoding : ¬(s.tag = lit "xml" ∧ Utf8.appendAll 0 name = lit "encoding")) :
    ∃ s', tokenNext env fuel s =
        some (.piAttribute s.tag (Utf8.appendAll 0 name) (Utf8.appendAll 0 value), s') ∧
      Stands s' .inPI mode (stop :: cs) ∧ s'.tag = s.tag := by
  obtain ⟨ch, count, j, hch, hhave, hcurrent, hread, hhave', hcurrent', hj⟩ :=
    readAttributeName (~~~(whitespaceChar ||| eqChar ||| quesChar ||| gtChar)) hs.settled hs.ahead hne hname (by decide)
      (by decide)
  obtain ⟨count', k, hread', hk⟩ := readQuoted (~~~(whitespaceChar ||| quesChar ||| gtChar)) hj.settled hj.ahead
    (by decide) hvalue (by rcases hstop with rfl | rfl <;> decide) (by rcases hstop with rfl | rfl <;> decide)
  have hdeclare : declareEncoding env s.tag (Utf8.appendAll 0 name) (Utf8.appendAll 0 value) k = k :=
    if_neg fun hdeclared => hencoding hdeclared.2
  have htoken : readNextToken env fuel s =
      some (.piAttribute, { s.marked with
        name := Utf8.appendAll 0 name
        value := Utf8.appendAll 0 value
        input := k }) := by
    rw [readNextToken_inPI hs.state hs.ahead]
    unfold readInPI
    simp only [marked, hhave, hcurrent, hch.ne (c := 63) (by decide), hch.ne (c := 62) (by decide), hread, hhave',
      hcurrent', hread', if_true, hdeclare]
    rfl
  exact ⟨_, tokenNext_of_token htoken, ⟨hk.settled, hs.state, hs.mode, hk.ahead⟩, rfl⟩

theorem token_piEnd (hs : Stands s .inPI mode (63 :: 62 :: cs)) :
    ∃ s', tokenNext env fuel s = some (.null, s') ∧ Stands s' .main mode cs := by
  have hspace := skip_whitespace_cons hs.settled hs.ahead (by decide)
  obtain ⟨hhave, hcurrent, -⟩ := ahead_eq_cons.mp hspace.ahead
  have hskip := skipTag_reaches hspace.settled
  have hques : sequence (~~~gtChar) 0 ([63] ++ 62 :: cs) = ([63], 62 :: cs) :=
    sequence_append (List.forall_mem_singleton.mpr (by decide)) (by decide) (by decide)
  rw [hspace.ahead, ← List.singleton_append, hques] at hskip
  have htoken : readNextToken env fuel s =
      some (.null, { s.marked with state := .main, input := skipTag (skip whitespaceChar s.input) }) := by
    rw [readNextToken_inPI hs.state hs.ahead]
    unfold readInPI
    simp only [marked, hhave, hcurrent]
    rfl
  exact ⟨_, tokenNext_of_token htoken, hskip.settled, rfl, hs.mode, hskip.ahead⟩

/-! ### Texts and the end -/

/-- What the reader reports for a raw text. -/
def textValue (env : Environment) (mode : WhitespaceMode) (raw : Bytes) : Bytes :=
  if mode ≠ .allWS ∧ raw.all isBlank then
    if mode = .singleWS then lit " " else []
  else expandEntities env.expandEntityReference raw

theorem token_text (hs : Stands s .main mode (value ++ cs)) (hne : value ≠ []) (hvalue : 60 ∉ value)
    (hcs : ∀ ch ∈ cs.head?, ch = 60) :
    ∃ s', tokenNext env fuel s = some (.text (textValue env mode (Utf8.appendAll 0 value)), s') ∧
      Stands s' .main mode cs := by
  obtain ⟨j, hread, hj⟩ := readCharacterSequence_reaches (~~~(ltChar ||| processQuotes)) hs.settled
  rw [hs.ahead, sequence_text hvalue hcs] at hread hj
  have htoken : readNextToken env fuel s =
      some (.text, { s.marked with value := textValue env mode (Utf8.appendAll 0 value), input := j }) := by
    obtain ⟨c, value', rfl⟩ := List.exists_cons_of_ne_nil hne
    have hc : c ≠ 60 := fun hc => hvalue (hc ▸ List.mem_cons_self)
    rw [readNextToken_text hs.state hs.ahead hc, ← hs.mode]
    unfold readText
    simp only [marked, hread]
    rfl
  exact ⟨_, tokenNext_of_token htoken, hj.settled, hs.state, hs.mode, hj.ahead⟩

theorem token_eof {state : State} (hs : Stands s state mode []) : tokenNext env fuel s = some (.eof, s) :=
  tokenNext_of_token (readNextToken_end hs.ahead)

end Reader

end Afl.Io.Xml
