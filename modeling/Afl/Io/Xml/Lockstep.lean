import Afl.Io.Xml.Reader

/-!
# XML readers in lockstep

Two readers with the same characters before them return the same tokens, whatever else is different: how their bytes are
buffered, where the bytes are in the document, or properties that an earlier token has left behind. A relation between
inputs is in `Lockstep` if reading a character keeps it; then everything that the reader makes of them keeps it.
-/

namespace Afl.Io.Xml

open Charset

namespace Input

/-- Related inputs have the same current character, and reading on keeps them related. -/
structure Lockstep (R : Input → Input → Prop) : Prop where
  current : ∀ {i j}, R i j → j.haveCurrentCharacter = i.haveCurrentCharacter ∧ j.currentCharacter = i.currentCharacter
  next : ∀ {i j}, R i j → R i.readNextChar j.readNextChar

/-- The same for a declaration of the encoding. -/
structure Declares (R : Input → Input → Prop) : Prop where
  encoding : ∀ {i j}, R i j → j.encoding = i.encoding
  declare : ∀ {i j}, R i j → ∀ encoding codepage,
    R { i with encoding := encoding, codepage := codepage } { j with encoding := encoding, codepage := codepage }

theorem Lockstep.of_closed {P : Input → Prop} (h : ∀ {i}, P i → P i.readNextChar) : Lockstep fun i j => i = j ∧ P i where
  current := by
    rintro i _ ⟨rfl, -⟩
    exact ⟨rfl, rfl⟩
  next := by
    rintro i _ ⟨rfl, hi⟩
    exact ⟨rfl, h hi⟩

variable {R : Input → Input → Prop} {i j : Input}

theorem sequenceLoop_lockstep (hR : Lockstep R) (acceptClasses : UInt32) (currentQuote : Unichar) (h : R i j) :
    ∃ j', sequenceLoop acceptClasses currentQuote j =
        ((sequenceLoop acceptClasses currentQuote i).1, (sequenceLoop acceptClasses currentQuote i).2.1, j') ∧
      R (sequenceLoop acceptClasses currentQuote i).2.2 j' := by
  induction hleft : i.left using Nat.strongRecOn generalizing i j currentQuote with
  | _ n ih =>
    obtain ⟨hhave, hch⟩ := hR.current h
    rw [sequenceLoop.eq_def acceptClasses currentQuote j, sequenceLoop.eq_def acceptClasses currentQuote i, hhave, hch]
    by_cases hmore : i.haveCurrentCharacter = true
    · rw [if_pos hmore, if_pos hmore]
      have hnext : ∀ quote, ∃ j', sequenceLoop acceptClasses quote j.readNextChar =
            ((sequenceLoop acceptClasses quote i.readNextChar).1,
              (sequenceLoop acceptClasses quote i.readNextChar).2.1, j') ∧
          R (sequenceLoop acceptClasses quote i.readNextChar).2.2 j' := fun quote =>
        ih _ (hleft ▸ left_readNextChar_lt hmore) quote (hR.next h) rfl
      obtain ⟨j', hj, hrest⟩ := hnext currentQuote
      simp only [hj]
      split_ifs
      · exact hnext 0
      · exact hnext _
      · exact ⟨j', rfl, hrest⟩
      · exact ⟨j, rfl, h⟩
    · rw [if_neg hmore, if_neg hmore]
      exact ⟨j, rfl, h⟩

theorem unparsedLoop_lockstep (hR : Lockstep R) (numRBrack : Nat) (h : R i j) :
    ∃ j', unparsedLoop numRBrack j = ((unparsedLoop numRBrack i).1, j') ∧ R (unparsedLoop numRBrack i).2 j' := by
  induction hleft : i.left using Nat.strongRecOn generalizing i j numRBrack with
  | _ n ih =>
    obtain ⟨hhave, hch⟩ := hR.current h
    rw [unparsedLoop.eq_def numRBrack j, unparsedLoop.eq_def numRBrack i, hhave, hch]
    by_cases hmore : i.haveCurrentCharacter = true
    · rw [if_pos hmore, if_pos hmore]
      have hnext : ∀ k, ∃ j', unparsedLoop k j.readNextChar = ((unparsedLoop k i.readNextChar).1, j') ∧
          R (unparsedLoop k i.readNextChar).2 j' := fun k =>
        ih _ (hleft ▸ left_readNextChar_lt hmore) k (hR.next h) rfl
      obtain ⟨j₀, hj₀, hR₀⟩ := hnext 0
      obtain ⟨j₂, hj₂, hR₂⟩ := hnext 2
      simp only [hj₀, hj₂]
      split_ifs
      · exact hnext 1
      · exact ⟨j₀, rfl, hR₀⟩
      · exact ⟨j₂, rfl, hR₂⟩
      · exact ⟨j₀, rfl, hR₀⟩
      · exact ⟨_, rfl, hR.next h⟩
      · exact ⟨j₂, rfl, hR₂⟩
      · exact ⟨j₀, rfl, hR₀⟩
    · rw [if_neg hmore, if_neg hmore]
      exact ⟨j, rfl, h⟩

theorem readCharacterSequence_lockstep (hR : Lockstep R) (acceptClasses : UInt32) (h : R i j) :
    ∃ count text i' j', i.readCharacterSequence acceptClasses = (count, text, i') ∧
      j.readCharacterSequence acceptClasses = (count, text, j') ∧ R i' j' := by
  obtain ⟨j', hj, hrest⟩ := sequenceLoop_lockstep hR acceptClasses 0 h
  exact ⟨_, _, _, j', rfl, hj, hrest⟩

theorem readUnparsedCharacterData_lockstep (hR : Lockstep R) (h : R i j) :
    ∃ text i' j', i.readUnparsedCharacterData = (text, i') ∧ j.readUnparsedCharacterData = (text, j') ∧ R i' j' := by
  obtain ⟨j', hj, hrest⟩ := unparsedLoop_lockstep hR 0 h
  exact ⟨_, _, j', rfl, hj, hrest⟩

end Input

namespace Reader

open Input

variable {env : Environment} {R : Input → Input → Prop} {i j : Input} {s s' : Reader}

theorem skip_lockstep (hR : Lockstep R) (acceptClasses : UInt32) (h : R i j) :
    R (skip acceptClasses i) (skip acceptClasses j) := by
  obtain ⟨count, text, i', j', hi, hj, hrest⟩ := readCharacterSequence_lockstep hR acceptClasses h
  rw [skip, skip, hi, hj]
  exact hrest

theorem skipTag_lockstep (hR : Lockstep R) (h : R i j) : R (skipTag i) (skipTag j) := hR.next (skip_lockstep hR _ h)

/-- What a reader has read, and how it goes on. -/
structure Along (R : Input → Input → Prop) (s s' : Reader) : Prop where
  input : R s.input s'.input
  mode : s'.whitespaceMode = s.whitespaceMode
  state : s'.state = s.state
  tag : s.state ≠ .main → s'.tag = s.tag

def item (r : Token × Reader) : Item := .make r.1 r.2.tag r.2.name r.2.value

/-- Two readers have returned the same. -/
structure Returned (R : Input → Input → Prop) (r r' : Token × Reader) : Prop where
  token : r'.1 = r.1
  reader : Along R r.2 r'.2
  item : item r' = item r

theorem readPIStart_lockstep (hR : Lockstep R) (hs : Along R s s') (h : R i j) :
    Returned R (readPIStart s i) (readPIStart s' j) := by
  obtain ⟨_, tag, i', j', hi, hj, hrest⟩ := readCharacterSequence_lockstep hR
    (~~~(whitespaceChar ||| gtChar ||| quesChar)) (skip_lockstep hR whitespaceChar (hR.next h))
  simp only [readPIStart, hi, hj]
  exact ⟨rfl, ⟨hrest, hs.mode, rfl, fun _ => rfl⟩, rfl⟩

theorem readEndTag_lockstep (hR : Lockstep R) (hs : Along R s s') (h : R i j) :
    Returned R (readEndTag s i) (readEndTag s' j) := by
  obtain ⟨_, tag, i', j', hi, hj, hrest⟩ := readCharacterSequence_lockstep hR (~~~(whitespaceChar ||| gtChar))
    (skip_lockstep hR whitespaceChar (hR.next h))
  simp only [readEndTag, hi, hj]
  exact ⟨rfl, ⟨skipTag_lockstep hR hrest, hs.mode, hs.state, fun _ => rfl⟩, rfl⟩

theorem readTagStart_lockstep (hR : Lockstep R) (hs : Along R s s') (h : R i j) :
    Returned R (readTagStart s i) (readTagStart s' j) := by
  obtain ⟨_, tag, i', j', hi, hj, hrest⟩ := readCharacterSequence_lockstep hR
    (~~~(whitespaceChar ||| gtChar ||| slashChar)) h
  simp only [readTagStart, hi, hj]
  exact ⟨rfl, ⟨hrest, hs.mode, rfl, fun _ => rfl⟩, rfl⟩

theorem readSection_lockstep (hR : Lockstep R) (hs : Along R s s') (h : R i j) :
    Returned R (readSection s i) (readSection s' j) := by
  obtain ⟨_, tmp, i₁, j₁, hi₁, hj₁, hrest₁⟩ := readCharacterSequence_lockstep hR
    (~~~(lBracketChar ||| processQuotes)) (hR.next h)
  obtain ⟨value, i₂, j₂, hi₂, hj₂, hrest₂⟩ := readUnparsedCharacterData_lockstep hR (hR.next hrest₁)
  simp only [readSection, hi₁, hj₁, hi₂, hj₂]
  split_ifs
  · exact ⟨rfl, ⟨hrest₂, hs.mode, hs.state, hs.tag⟩, rfl⟩
  · exact ⟨rfl, ⟨skipTag_lockstep hR hrest₁, hs.mode, hs.state, hs.tag⟩, rfl⟩

theorem commentLoop_lockstep (hR : Lockstep R) (fuel : Nat) (loop : Bool) (value : Bytes) (h : R i j) :
    Option.Rel (fun r r' : Bytes × Input => r'.1 = r.1 ∧ R r.2 r'.2) (commentLoop fuel loop value i)
      (commentLoop fuel loop value j) := by
  induction fuel generalizing loop value i j with
  | zero => exact .none
  | succ fuel ih =>
    obtain ⟨_, text, i₁, j₁, hi₁, hj₁, hrest₁⟩ := readCharacterSequence_lockstep hR (~~~(minusChar ||| processQuotes)) h
    obtain ⟨count, _, i₂, j₂, hi₂, hj₂, hrest₂⟩ := readCharacterSequence_lockstep hR minusChar hrest₁
    simp only [commentLoop, hi₁, hj₁, hi₂, hj₂, (hR.current hrest₁).2]
    generalize (if loop = true then value ++ [45] else value) = value
    split_ifs
    · exact ih _ _ hrest₂
    · exact Option.Rel.some ⟨rfl, hrest₂⟩
    · exact Option.Rel.some ⟨rfl, hrest₁⟩

theorem readComment_lockstep (hR : Lockstep R) (fuel : Nat) (hs : Along R s s') (h : R i j) :
    Option.Rel (Returned R) (readComment fuel s i) (readComment fuel s' j) := by
  obtain ⟨count, _, i', j', hi, hj, hrest⟩ := readCharacterSequence_lockstep hR minusChar h
  have hloop : Option.Rel (fun r r' : Bytes × Input => r'.1 = r.1 ∧ R r.2 r'.2)
      (if count ≥ 2 then commentLoop fuel false [] i' else some ([], i'))
      (if count ≥ 2 then commentLoop fuel false [] j' else some ([], j')) := by
    split_ifs
    · exact commentLoop_lockstep hR fuel false [] hrest
    · exact Option.Rel.some ⟨rfl, hrest⟩
  simp only [readComment, hi, hj]
  generalize (if count ≥ 2 then commentLoop fuel false [] i' else some ([], i')) = r at hloop ⊢
  generalize (if count ≥ 2 then commentLoop fuel false [] j' else some ([], j')) = r' at hloop ⊢
  cases hloop with
  | none => exact .none
  | @some r r' hr =>
    obtain ⟨value, i₁⟩ := r
    obtain ⟨value', j₁⟩ := r'
    obtain ⟨rfl, hinput⟩ := hr
    exact Option.Rel.some ⟨rfl, ⟨skipTag_lockstep hR hinput, hs.mode, hs.state, hs.tag⟩, rfl⟩

theorem readDeclaration_lockstep (hR : Lockstep R) (fuel : Nat) (hs : Along R s s') (h : R i j) :
    Option.Rel (Returned R) (readDeclaration fuel s i) (readDeclaration fuel s' j) := by
  have hnext := hR.next h
  simp only [readDeclaration, (hR.current hnext).1, (hR.current hnext).2]
  split_ifs
  · exact Option.Rel.some ⟨rfl, ⟨hnext, hs.mode, hs.state, hs.tag⟩, rfl⟩
  · exact Option.Rel.some (readSection_lockstep hR hs hnext)
  · exact readComment_lockstep hR fuel hs hnext
  · exact Option.Rel.some ⟨rfl, ⟨skipTag_lockstep hR hnext, hs.mode, hs.state, hs.tag⟩, rfl⟩

theorem readMarkup_lockstep (hR : Lockstep R) (fuel : Nat) (hs : Along R s s') :
    Option.Rel (Returned R) (readMarkup fuel s) (readMarkup fuel s') := by
  have hfirst := skip_lockstep hR whitespaceChar (hR.next hs.input)
  simp only [readMarkup, (hR.current hfirst).1, (hR.current hfirst).2]
  split_ifs
  · exact Option.Rel.some ⟨rfl, ⟨hfirst, hs.mode, hs.state, hs.tag⟩, rfl⟩
  · exact Option.Rel.some (readPIStart_lockstep hR hs hfirst)
  · exact Option.Rel.some (readEndTag_lockstep hR hs hfirst)
  · exact readDeclaration_lockstep hR fuel hs hfirst
  · exact Option.Rel.some (readTagStart_lockstep hR hs hfirst)

theorem readText_lockstep (env : Environment) (hR : Lockstep R) (hs : Along R s s') :
    Returned R (readText env s) (readText env s') := by
  obtain ⟨_, text, i', j', hi, hj, hrest⟩ := readCharacterSequence_lockstep hR (~~~(ltChar ||| processQuotes)) hs.input
  simp only [readText, hi, hj, hs.mode]
  exact ⟨rfl, ⟨hrest, rfl, hs.state, hs.tag⟩, rfl⟩

theorem readInTag_lockstep (env : Environment) (hR : Lockstep R) (hs : Along R s s') (hstate : s.state = .inTag) :
    Returned R (readInTag env s) (readInTag env s') := by
  have htag : s'.tag = s.tag := hs.tag (by simp [hstate])
  have hfirst := skip_lockstep hR whitespaceChar hs.input
  obtain ⟨_, name, i₁, j₁, hi₁, hj₁, hrest₁⟩ := readCharacterSequence_lockstep hR
    (~~~(whitespaceChar ||| eqChar ||| gtChar ||| slashChar)) hfirst
  have hspace := skip_lockstep hR whitespaceChar hrest₁
  obtain ⟨_, value, i₂, j₂, hi₂, hj₂, hrest₂⟩ := readCharacterSequence_lockstep hR
    (~~~(whitespaceChar ||| gtChar ||| slashChar)) (skip_lockstep hR whitespaceChar (hR.next hspace))
  simp only [readInTag, hi₁, hj₁, hi₂, hj₂, (hR.current hfirst).1, (hR.current hfirst).2, (hR.current hspace).1,
    (hR.current hspace).2]
  split_ifs
  · exact ⟨rfl, ⟨hfirst, hs.mode, hs.state, hs.tag⟩, rfl⟩
  · exact ⟨rfl, ⟨skipTag_lockstep hR hfirst, hs.mode, rfl, fun _ => htag⟩, by simp [item, Item.make, htag]⟩
  · exact ⟨rfl, ⟨hR.next hfirst, hs.mode, rfl, fun _ => htag⟩, rfl⟩
  · exact ⟨rfl, ⟨hspace, hs.mode, hs.state, hs.tag⟩, rfl⟩
  · exact ⟨rfl, ⟨hrest₂, hs.mode, hs.state, hs.tag⟩, by simp [item, Item.make, htag]⟩
  · exact ⟨rfl, ⟨hspace, hs.mode, hs.state, hs.tag⟩, by simp [item, Item.make, htag]⟩

theorem declareEncoding_lockstep (env : Environment) (hD : Declares R) (tag name value : Bytes) (h : R i j) :
    R (declareEncoding env tag name value i) (declareEncoding env tag name value j) := by
  unfold declareEncoding
  rw [hD.encoding h]
  split_ifs
  · cases env.createCharset value with
    | none => exact hD.declare h _ _
    | some codepage => exact hD.declare h _ _
  · exact h

theorem readInPI_lockstep (env : Environment) (hR : Lockstep R) (hD : Declares R) (hs : Along R s s')
    (hstate : s.state = .inPI) : Returned R (readInPI env s) (readInPI env s') := by
  have htag : s'.tag = s.tag := hs.tag (by simp [hstate])
  have hfirst := skip_lockstep hR whitespaceChar hs.input
  obtain ⟨_, name, i₁, j₁, hi₁, hj₁, hrest₁⟩ := readCharacterSequence_lockstep hR
    (~~~(whitespaceChar ||| eqChar ||| quesChar ||| gtChar)) hfirst
  have hspace := skip_lockstep hR whitespaceChar hrest₁
  obtain ⟨_, value, i₂, j₂, hi₂, hj₂, hrest₂⟩ := readCharacterSequence_lockstep hR
    (~~~(whitespaceChar ||| quesChar ||| gtChar)) (skip_lockstep hR whitespaceChar (hR.next hspace))
  simp only [readInPI, hi₁, hj₁, hi₂, hj₂, (hR.current hfirst).1, (hR.current hfirst).2, (hR.current hspace).1,
    (hR.current hspace).2, htag]
  split_ifs
  · exact ⟨rfl, ⟨hfirst, hs.mode, hs.state, fun _ => rfl⟩, rfl⟩
  · exact ⟨rfl, ⟨skipTag_lockstep hR hfirst, hs.mode, rfl, fun _ => rfl⟩, rfl⟩
  · exact ⟨rfl, ⟨hspace, hs.mode, hs.state, fun _ => rfl⟩, rfl⟩
  · exact ⟨rfl, ⟨declareEncoding_lockstep env hD _ _ _ hrest₂, hs.mode, hs.state, fun _ => rfl⟩, rfl⟩
  · exact ⟨rfl, ⟨declareEncoding_lockstep env hD _ _ _ hspace, hs.mode, hs.state, fun _ => rfl⟩, rfl⟩

/-- **Readers in lockstep return the same tokens.** -/
theorem readNextToken_lockstep (env : Environment) (hR : Lockstep R) (fuel : Nat) (hs : Along R s s')
    (hD : s.state = .inPI → Declares R) :
    Option.Rel (Returned R) (readNextToken env fuel s) (readNextToken env fuel s') := by
  have hmarked : Along R s.marked s'.marked := ⟨hs.input, hs.mode, hs.state, hs.tag⟩
  simp only [readNextToken, (hR.current hs.input).1, (hR.current hs.input).2, hs.state]
  by_cases hend : s.input.haveCurrentCharacter = false
  · simp only [if_pos hend]
    exact Option.Rel.some ⟨rfl, hs, rfl⟩
  · simp only [if_neg hend]
    cases hstate : s.state with
    | main =>
      simp only
      split_ifs
      · exact readMarkup_lockstep hR fuel hmarked
      · exact Option.Rel.some (readText_lockstep env hR hmarked)
    | inTag => exact Option.Rel.some (readInTag_lockstep env hR hmarked hstate)
    | inPI => exact Option.Rel.some (readInPI_lockstep env hR (hD hstate) hmarked hstate)

theorem isIgnored_eq_item (r : Token × Reader) : isIgnored r.1 r.2 = decide (item r = .null ∨ item r = .text []) := by
  obtain ⟨token, s⟩ := r
  cases hvalue : s.value <;> cases token <;> simp [isIgnored, item, Item.make, hvalue]

theorem readNext_lockstep (env : Environment) (hR : Lockstep R) (hD : Declares R) (fuel : Nat) (hs : Along R s s') :
    Option.Rel (Returned R) (readNext env fuel s) (readNext env fuel s') := by
  induction fuel generalizing s s' with
  | zero => exact .none
  | succ fuel ih =>
    have htoken := readNextToken_lockstep env hR (fuel + 1) hs fun _ => hD
    rw [readNext, readNext]
    generalize readNextToken env (fuel + 1) s = r at htoken ⊢
    generalize readNextToken env (fuel + 1) s' = r' at htoken ⊢
    cases htoken with
    | none => exact .none
    | @some r r' hr =>
      have hignored : isIgnored r'.1 r'.2 = isIgnored r.1 r.2 := by
        rw [isIgnored_eq_item, isIgnored_eq_item, hr.item]
      simp only [hignored]
      split_ifs
      · exact ih hr.reader
      · exact Option.Rel.some hr

end Reader

end Afl.Io.Xml
