import Afl.Io.Xml.Reader
import Afl.Io.Xml.Runes

/-!
# The names that the XML reader reports

The reader never sees a character above U+FFFF, whatever the document and its encoding, and names are made of the
characters it sees. So it never reports a name that has such a character.
-/

namespace Afl.Io.Xml

open Charset Input

/-- The current character is not above U+FFFF. -/
def Input.Low (i : Input) : Prop := i.currentCharacter.toNat ≤ 0xFFFF

/-- Neither the current character nor the names are above U+FFFF. -/
structure Reader.Low (s : Reader) : Prop where
  input : s.input.Low
  tag : Narrow s.tag
  name : Narrow s.name

/-! ### The functions of the input -/

section

variable {i : Input}

theorem low_readNextChar (hi : i.Low) : i.readNextChar.Low := by
  obtain ⟨-, -, hsame, -⟩ | ⟨hcons, -, -⟩ := readNextChar_cases i
  · rw [Input.Low, hsame]
    exact hi
  · have hmem : i.readNextChar.currentCharacter ∈ i.following := by
      rw [hcons]
      exact List.mem_cons_self
    exact le_of_mem_decode _ hmem

theorem low_sequenceLoop (acceptClasses : UInt32) (currentQuote : Unichar) (hi : i.Low) :
    Narrow (sequenceLoop acceptClasses currentQuote i).2.1 ∧ (sequenceLoop acceptClasses currentQuote i).2.2.Low := by
  fun_induction sequenceLoop acceptClasses currentQuote i with
  | case1 currentQuote i _ _ _ ih => exact ih (low_readNextChar hi)
  | case2 currentQuote i _ _ _ _ ih => exact ih (low_readNextChar hi)
  | case3 currentQuote i _ ch _ _ _ count accum j hloop ih =>
    rw [hloop] at ih
    obtain ⟨haccum, hj⟩ := ih (low_readNextChar hi)
    have hch : Narrow (Utf8.append 0 ch) := (narrow_append_iff (Nat.le_trans hi (by decide))).mpr hi
    exact ⟨narrow_append.mpr ⟨hch, haccum⟩, hj⟩
  | case4 currentQuote i _ _ _ _ _ => exact ⟨nofun, hi⟩
  | case5 currentQuote i _ => exact ⟨nofun, hi⟩

theorem low_readCharacterSequence (acceptClasses : UInt32) (hi : i.Low) :
    Narrow (i.readCharacterSequence acceptClasses).2.1 ∧ (i.readCharacterSequence acceptClasses).2.2.Low :=
  low_sequenceLoop acceptClasses 0 hi

theorem low_unparsedLoop (numRBrack : Nat) (hi : i.Low) : (unparsedLoop numRBrack i).2.Low := by
  have hnext := fun {j : Input} => low_readNextChar (i := j)
  fun_induction unparsedLoop numRBrack i <;> simp_all

end

namespace Reader

variable {env : Environment} {i : Input} {s s' : Reader} {fuel : Nat} {t : Token}

theorem low_skip (acceptClasses : UInt32) (hi : i.Low) : (skip acceptClasses i).Low :=
  (low_readCharacterSequence acceptClasses hi).2

theorem low_skipTag (hi : i.Low) : (skipTag i).Low := low_readNextChar (low_skip _ hi)

theorem low_commentLoop {loop : Bool} {value value' : Bytes} {j : Input} (hi : i.Low)
    (h : commentLoop fuel loop value i = some (value', j)) : j.Low := by
  induction fuel generalizing loop value i with
  | zero => cases h
  | succ fuel ih =>
    have htext := (low_readCharacterSequence (~~~(minusChar ||| processQuotes)) hi).2
    have hdashes := (low_readCharacterSequence minusChar htext).2
    rw [commentLoop] at h
    generalize (if loop = true then value ++ [45] else value) = value₁ at h
    simp only at h
    split_ifs at h
    · exact ih hdashes h
    · cases h
      exact hdashes
    · cases h
      exact htext

/-! ### The states of the reader -/

theorem Low.with_input (hs : s.Low) (hi : i.Low) (value : Bytes) (state : State) :
    Low { s with input := i, value := value, state := state } := ⟨hi, hs.tag, hs.name⟩

theorem low_of_some {r : Token × Reader} (hr : r.2.Low) (h : some r = some (t, s')) : s'.Low := by
  rw [Option.some.inj h] at hr
  exact hr

theorem low_readComment (hs : s.Low) (hi : i.Low) (h : readComment fuel s i = some (t, s')) : s'.Low := by
  have hdashes := (low_readCharacterSequence minusChar hi).2
  unfold readComment at h
  simp only at h
  split at h
  · cases h
  · next value j hcomment =>
    cases h
    have hj : j.Low := by
      split_ifs at hcomment
      · exact low_commentLoop hdashes hcomment
      · cases hcomment
        exact hdashes
    exact hs.with_input (low_skipTag hj) value s.state

theorem low_readSection (hs : s.Low) (hi : i.Low) : (readSection s i).2.Low := by
  have hname := (low_readCharacterSequence (~~~(lBracketChar ||| processQuotes)) (low_readNextChar hi)).2
  unfold readSection
  simp only
  split_ifs
  · exact hs.with_input (low_unparsedLoop 0 (low_readNextChar hname)) _ s.state
  · exact hs.with_input (low_skipTag hname) s.value s.state

theorem low_readDeclaration (hs : s.Low) (hi : i.Low) (h : readDeclaration fuel s i = some (t, s')) : s'.Low := by
  have hnext := low_readNextChar hi
  unfold readDeclaration at h
  simp only at h
  split_ifs at h
  · cases h
    exact hs.with_input hnext s.value s.state
  · exact low_of_some (low_readSection hs hnext) h
  · exact low_readComment hs hnext h
  · cases h
    exact hs.with_input (low_skipTag hnext) s.value s.state

theorem low_readMarkup (hs : s.Low) (h : readMarkup fuel s = some (t, s')) : s'.Low := by
  have hspace := low_skip whitespaceChar (low_readNextChar hs.input)
  unfold readMarkup at h
  simp only at h
  generalize skip whitespaceChar s.input.readNextChar = i at hspace h
  have hnext := low_skip whitespaceChar (low_readNextChar hspace)
  split_ifs at h
  · cases h
    exact hs.with_input hspace s.value s.state
  · cases h
    obtain ⟨htag, hrest⟩ := low_readCharacterSequence (~~~(whitespaceChar ||| gtChar ||| quesChar)) hnext
    exact ⟨hrest, htag, hs.name⟩
  · cases h
    obtain ⟨htag, hrest⟩ := low_readCharacterSequence (~~~(whitespaceChar ||| gtChar)) hnext
    exact ⟨low_skipTag hrest, htag, hs.name⟩
  · exact low_readDeclaration hs hspace h
  · cases h
    obtain ⟨htag, hrest⟩ := low_readCharacterSequence (~~~(whitespaceChar ||| gtChar ||| slashChar)) hspace
    exact ⟨hrest, htag, hs.name⟩

theorem low_readText (env : Environment) (hs : s.Low) : (readText env s).2.Low :=
  hs.with_input (low_readCharacterSequence (~~~(ltChar ||| processQuotes)) hs.input).2 _ s.state

theorem low_readInTag (env : Environment) (hs : s.Low) : (readInTag env s).2.Low := by
  have hspace := low_skip whitespaceChar hs.input
  unfold readInTag
  simp only
  generalize skip whitespaceChar s.input = i at hspace
  obtain ⟨hname, hrest⟩ :=
    low_readCharacterSequence (~~~(whitespaceChar ||| eqChar ||| gtChar ||| slashChar)) hspace
  have hrest := low_skip whitespaceChar hrest
  split_ifs
  · exact hs.with_input hspace s.value s.state
  · exact hs.with_input (low_skipTag hspace) s.value .main
  · exact hs.with_input (low_readNextChar hspace) s.value .main
  · exact ⟨hrest, hs.tag, hname⟩
  · have hvalue := low_skip whitespaceChar (low_readNextChar hrest)
    exact ⟨(low_readCharacterSequence _ hvalue).2, hs.tag, hname⟩
  · exact ⟨hrest, hs.tag, hname⟩

theorem low_declareEncoding (env : Environment) (hi : i.Low) (tag name value : Bytes) :
    (declareEncoding env tag name value i).Low := by
  unfold declareEncoding
  split_ifs
  · split <;> exact hi
  · exact hi

theorem low_readInPI (env : Environment) (hs : s.Low) : (readInPI env s).2.Low := by
  have hspace := low_skip whitespaceChar hs.input
  unfold readInPI
  simp only
  generalize skip whitespaceChar s.input = i at hspace
  obtain ⟨hname, hrest⟩ :=
    low_readCharacterSequence (~~~(whitespaceChar ||| eqChar ||| quesChar ||| gtChar)) hspace
  have hrest := low_skip whitespaceChar hrest
  have hvalue := low_skip whitespaceChar (low_readNextChar hrest)
  split_ifs
  · exact hs.with_input hspace s.value s.state
  · exact hs.with_input (low_skipTag hspace) s.value .main
  · exact ⟨hrest, hs.tag, hname⟩
  · exact ⟨low_declareEncoding env (low_readCharacterSequence _ hvalue).2 _ _ _, hs.tag, hname⟩
  · exact ⟨low_declareEncoding env hrest _ _ _, hs.tag, hname⟩

theorem low_readNextToken (hs : s.Low) (h : readNextToken env fuel s = some (t, s')) : s'.Low := by
  have hmarked : s.marked.Low := ⟨hs.input, hs.tag, hs.name⟩
  cases hahead : s.input.ahead with
  | nil =>
    rw [readNextToken_end hahead] at h
    exact low_of_some hs h
  | cons ch cs =>
    cases hstate : s.state with
    | main =>
      by_cases hch : ch = 60
      · subst hch
        rw [readNextToken_markup hstate hahead] at h
        exact low_readMarkup hmarked h
      · rw [readNextToken_text hstate hahead hch] at h
        exact low_of_some (low_readText env hmarked) h
    | inTag =>
      rw [readNextToken_inTag hstate hahead] at h
      exact low_of_some (low_readInTag env hmarked) h
    | inPI =>
      rw [readNextToken_inPI hstate hahead] at h
      exact low_of_some (low_readInPI env hmarked) h

theorem low_readNext (hs : s.Low) (h : readNext env fuel s = some (t, s')) : s'.Low := by
  induction fuel generalizing s with
  | zero => cases h
  | succ fuel ih =>
    rw [readNext] at h
    split at h
    · cases h
    · next token s₁ htoken =>
      have hs₁ := low_readNextToken hs htoken
      split_ifs at h
      · exact ih hs₁ h
      · cases h
        exact hs₁

theorem low_new (stream : InternalStream) (mode : WhitespaceMode) : ((new stream).setWhitespaceMode mode).Low :=
  ⟨low_readNextChar (Nat.zero_le _), nofun, nofun⟩

end Reader

end Afl.Io.Xml
