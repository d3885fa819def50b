import Afl.Io.Xml.Reader

/-!
# Termination of the XML reader

Every token consumes a character, in whatever state the document ends, with one exception: the loop over a comment
asks for the current character without asking whether there is one. It does not end when the document does and its
last character is a dash.
-/

namespace Afl.Io.Xml

open Charset Input

namespace Reader

variable {env : Environment} {i : Input} {s s' : Reader} {fuel : Nat}

theorem skip_reaches (acceptClasses : UInt32) (hi : i.Settled) :
    Reaches i (sequence acceptClasses 0 i.ahead).2 (skip acceptClasses i) := by
  obtain ⟨j, hread, hreaches⟩ := readCharacterSequence_reaches acceptClasses hi
  rw [skip, hread]
  exact hreaches

theorem skipTag_reaches (hi : i.Settled) : Reaches i (sequence (~~~gtChar) 0 i.ahead).2.tail (skipTag i) := by
  have hskip := skip_reaches (~~~gtChar) hi
  have hnext := readNextChar_reaches hskip.settled
  rw [hskip.ahead] at hnext
  exact hskip.trans hnext

/-! ### Comments -/

theorem pair_infix_dropWhile (cs : List Unichar) : [45, 45] <:+: cs.dropWhile (· ≠ 45) ↔ [45, 45] <:+: cs := by
  induction cs with
  | nil => rfl
  | cons ch cs ih =>
    by_cases hch : ch = 45
    · rw [List.dropWhile_cons_of_neg (by simpa using hch)]
    · rw [List.dropWhile_cons_of_pos (by simpa using hch), ih, List.infix_cons_iff]
      have hhead : ¬[45, 45] <+: ch :: cs := fun h => hch (List.cons_prefix_cons.mp h).1.symm
      exact ⟨Or.inr, fun h => h.resolve_left hhead⟩

theorem commentLoop_turn (hi : i.Settled) (fuel : Nat) (loop : Bool) (value : Bytes) :
    ∃ value' j k, Reaches i (i.ahead.dropWhile (· ≠ 45)) j ∧
      Reaches i ((i.ahead.dropWhile (· ≠ 45)).dropWhile (· = 45)) k ∧
      commentLoop (fuel + 1) loop value i =
        if j.currentCharacter = 45 then
          if ((i.ahead.dropWhile (· ≠ 45)).takeWhile (· = 45)).length < 2 then commentLoop fuel true value' k
          else some (value', k)
        else some (value', j) := by
  obtain ⟨j, hread, hj⟩ := readCharacterSequence_reaches (~~~(minusChar ||| processQuotes)) hi
  obtain ⟨k, hread', hk⟩ := readCharacterSequence_reaches minusChar hj.settled
  have htext : (sequence (~~~(minusChar ||| processQuotes)) 0 i.ahead).2 = i.ahead.dropWhile (· ≠ 45) := by
    rw [sequence_eq_span (by decide)]
    simp only [hasFlag_not_minusChar]
  rw [htext] at hj
  rw [sequence_minusChar, hj.ahead] at hk hread'
  refine ⟨(if loop then value ++ [45] else value) ++
    Utf8.appendAll 0 (sequence (~~~(minusChar ||| processQuotes)) 0 i.ahead).1, j, k, hj, hj.trans hk, ?_⟩
  rw [commentLoop]
  simp only [hread, hread']

theorem commentLoop_cases (hi : i.Settled) (fuel : Nat) (loop : Bool) (value : Bytes) :
    ∃ value' j cs, Reaches i cs j ∧
      ((¬[45, 45] <:+: i.ahead ∧ cs = [] ∧ i.lastCharacter ≠ 45 ∧
          commentLoop (fuel + 1) loop value i = some (value', j)) ∨
        (¬[45, 45] <:+: i.ahead ∧ cs = [] ∧ i.lastCharacter = 45 ∧
          commentLoop (fuel + 1) loop value i = commentLoop fuel true value' j) ∨
        ([45, 45] <:+: i.ahead ∧ commentLoop (fuel + 1) loop value i = some (value', j)) ∨
        (([45, 45] <:+: cs ↔ [45, 45] <:+: i.ahead) ∧ cs.length < i.ahead.length ∧
          commentLoop (fuel + 1) loop value i = commentLoop fuel true value' j)) := by
  obtain ⟨value', j, k, hj, hk, hturn⟩ := commentLoop_turn hi fuel loop value
  have hpair := pair_infix_dropWhile i.ahead
  have hlength := (List.dropWhile_suffix (· ≠ 45) (l := i.ahead)).length_le
  have hhead := List.head?_dropWhile_not (· ≠ 45) i.ahead
  generalize i.ahead.dropWhile (· ≠ 45) = rest at hj hk hturn hpair hlength hhead
  cases rest with
  | nil =>
    have hno : ¬[45, 45] <:+: i.ahead := fun h => absurd (hpair.mpr h) (by decide)
    have hlast : i.lastCharacter = j.currentCharacter := by
      rw [← hj.lastCharacter, hj.settled.lastCharacter_eq hj.ahead]
    by_cases hdash : j.currentCharacter = 45
    · rw [if_pos hdash] at hturn
      exact ⟨value', k, [], hk, .inr (.inl ⟨hno, rfl, hlast.trans hdash, hturn⟩)⟩
    · rw [if_neg hdash] at hturn
      exact ⟨value', j, [], hj, .inl ⟨hno, rfl, fun h => hdash (hlast.symm.trans h), hturn⟩⟩
  | cons ch cs =>
    obtain rfl : ch = 45 := by simpa using hhead
    have hdash : j.currentCharacter = 45 := (ahead_eq_cons.mp hj.ahead).2.1
    rw [if_pos hdash] at hturn
    by_cases hsecond : cs.head? = some 45
    · obtain ⟨cs', rfl⟩ := List.head?_eq_some_iff.mp hsecond
      have hyes : [45, 45] <:+: i.ahead := hpair.mp (List.IsPrefix.isInfix ⟨cs', rfl⟩)
      have hcount : ¬((45 :: 45 :: cs').takeWhile (· = 45)).length < 2 := by simp
      rw [if_neg hcount] at hturn
      exact ⟨value', k, _, hk, .inr (.inr (.inl ⟨hyes, hturn⟩))⟩
    · -- a single dash belongs to the text
      have htake : cs.takeWhile (· = 45) = [] := by
        cases cs with
        | nil => rfl
        | cons c cs => exact List.takeWhile_cons_of_neg (by simpa using hsecond)
      have hdrop : (45 :: cs).dropWhile (· = 45) = cs := by
        rw [List.dropWhile_cons_of_pos (by decide)]
        cases cs with
        | nil => rfl
        | cons c cs => exact List.dropWhile_cons_of_neg (by simpa using hsecond)
      have hcount : ((45 :: cs).takeWhile (· = 45)).length < 2 := by
        rw [List.takeWhile_cons_of_pos (by decide), htake]
        decide
      have hnot : ¬[45, 45] <+: 45 :: cs := by
        intro hprefix
        obtain ⟨cs', hcs⟩ := (List.cons_prefix_cons.mp hprefix).2
        exact hsecond (by rw [← hcs]; rfl)
      rw [if_pos hcount] at hturn
      rw [hdrop] at hk
      rw [List.infix_cons_iff] at hpair
      refine ⟨value', k, cs, hk, .inr (.inr (.inr ⟨?_, hlength, hturn⟩))⟩
      exact ⟨fun h => hpair.mp (.inr h), fun h => (hpair.mpr h).resolve_left hnot⟩

theorem commentLoop_returns (hi : i.Settled) (h : [45, 45] <:+: i.ahead ∨ i.lastCharacter ≠ 45)
    (hfuel : i.ahead.length < fuel) (loop : Bool) (value : Bytes) :
    ∃ value' j, commentLoop fuel loop value i = some (value', j) ∧ j.Settled ∧ j.left ≤ i.left := by
  induction fuel generalizing i loop value with
  | zero => exact absurd hfuel (Nat.not_lt_zero _)
  | succ fuel ih =>
    obtain ⟨value', j, cs, hj, hcases⟩ := commentLoop_cases hi fuel loop value
    rcases hcases with ⟨-, -, -, hturn⟩ | ⟨hno, -, hlast, -⟩ | ⟨-, hturn⟩ | ⟨hpair, hlt, hturn⟩
    · exact ⟨value', j, hturn, hj.settled, hj.left_le⟩
    · exact absurd hlast (h.resolve_left hno)
    · exact ⟨value', j, hturn, hj.settled, hj.left_le⟩
    · rw [← hpair, ← hj.ahead, ← hj.lastCharacter] at h
      have hfuel' : j.ahead.length < fuel := by
        rw [hj.ahead]
        omega
      obtain ⟨value'', k, hloop, hk, hle⟩ := ih hj.settled h hfuel' true value'
      exact ⟨value'', k, hturn.trans hloop, hk, hle.trans hj.left_le⟩

theorem commentLoop_hangs (hi : i.Settled) (hno : ¬[45, 45] <:+: i.ahead) (hlast : i.lastCharacter = 45) (fuel : Nat)
    (loop : Bool) (value : Bytes) : commentLoop fuel loop value i = none := by
  induction fuel generalizing i loop value with
  | zero => rfl
  | succ fuel ih =>
    obtain ⟨value', j, cs, hj, hcases⟩ := commentLoop_cases hi fuel loop value
    rcases hcases with ⟨-, -, hlast', -⟩ | ⟨-, rfl, -, hturn⟩ | ⟨hyes, -⟩ | ⟨hpair, -, hturn⟩
    · exact absurd hlast hlast'
    · rw [hturn]
      exact ih hj.settled (by rw [hj.ahead]; decide) (hj.lastCharacter.trans hlast) true value'
    · exact absurd hyes hno
    · rw [hturn]
      exact ih hj.settled (by rwa [hj.ahead, hpair]) (hj.lastCharacter.trans hlast) true value'

/-! ### Tokens -/

/-- Reading has gone on, or has not gone back. -/
structure Onward (i j : Input) : Prop where
  settled : j.Settled
  left_le : j.left ≤ i.left

theorem Onward.trans {j k : Input} (hij : Onward i j) (hjk : Onward j k) : Onward i k :=
  ⟨hjk.settled, hjk.left_le.trans hij.left_le⟩

variable {cs : List Unichar}

theorem onward_of_reaches {j : Input} (h : Reaches i cs j) : Onward i j := ⟨h.settled, h.left_le⟩

theorem onward_readNextChar (i : Input) : Onward i i.readNextChar := ⟨readNextChar_settled i, left_readNextChar_le i⟩

theorem onward_skip (acceptClasses : UInt32) (hi : i.Settled) : Onward i (skip acceptClasses i) :=
  onward_of_reaches (skip_reaches acceptClasses hi)

theorem onward_skipTag (hi : i.Settled) : Onward i (skipTag i) := onward_of_reaches (skipTag_reaches hi)

theorem onward_sequence (acceptClasses : UInt32) (hi : i.Settled) :
    Onward i (i.readCharacterSequence acceptClasses).2.2 := onward_skip acceptClasses hi

theorem onward_unparsed (hi : i.Settled) : Onward i i.readUnparsedCharacterData.2 := by
  obtain ⟨j, hread, hreaches⟩ := unparsedLoop_reaches 0 hi rfl
  rw [readUnparsedCharacterData, hread]
  exact onward_of_reaches hreaches

theorem onward_readPIStart (s : Reader) (i : Input) : Onward i (readPIStart s i).2.input := by
  have hnext := onward_readNextChar i
  have hspace := onward_skip whitespaceChar hnext.settled
  exact (hnext.trans hspace).trans (onward_sequence _ hspace.settled)

theorem onward_readEndTag (s : Reader) (i : Input) : Onward i (readEndTag s i).2.input := by
  have hnext := onward_readNextChar i
  have hspace := onward_skip whitespaceChar hnext.settled
  have hname := onward_sequence (~~~(whitespaceChar ||| gtChar)) hspace.settled
  exact ((hnext.trans hspace).trans hname).trans (onward_skipTag hname.settled)

theorem onward_readTagStart (s : Reader) (hi : i.Settled) : Onward i (readTagStart s i).2.input :=
  onward_sequence _ hi

theorem onward_readSection (s : Reader) (i : Input) : Onward i (readSection s i).2.input := by
  have hnext := onward_readNextChar i
  have hname := onward_sequence (~~~(lBracketChar ||| processQuotes)) hnext.settled
  unfold readSection
  simp only
  split_ifs
  · have hbracket := onward_readNextChar (i.readNextChar.readCharacterSequence (~~~(lBracketChar ||| processQuotes))).2.2
    exact ((hnext.trans hname).trans hbracket).trans (onward_unparsed hbracket.settled)
  · exact (hnext.trans hname).trans (onward_skipTag hname.settled)

theorem readComment_returns (s : Reader) (hi : i.Settled) (h : i.ahead = 45 :: cs)
    (hclosed : ∀ body, cs = 45 :: body → [45, 45] <:+: body.dropWhile (· = 45) ∨ i.lastCharacter ≠ 45)
    (hfuel : i.left < fuel) : ∃ t s', readComment fuel s i = some (t, s') ∧ Onward i s'.input := by
  obtain ⟨j, hread, hj⟩ := readCharacterSequence_reaches minusChar hi
  rw [sequence_minusChar, h] at hread hj
  unfold readComment
  simp only [hread]
  split_ifs with hcount
  · -- the comment has begun
    have hbody : ∃ body, cs = 45 :: body := by
      cases cs with
      | nil => simp at hcount
      | cons ch cs =>
        by_cases hch : ch = 45
        · exact ⟨cs, by rw [hch]⟩
        · simp [hch] at hcount
    obtain ⟨body, rfl⟩ := hbody
    have hahead : j.ahead = body.dropWhile (· = 45) := hj.ahead
    have hopen := hclosed body rfl
    rw [← hahead, ← hj.lastCharacter] at hopen
    have hfuel' : j.ahead.length < fuel := (length_ahead_le j).trans_lt (hj.left_le.trans_lt hfuel)
    obtain ⟨value, k, hloop, hk, hle⟩ := commentLoop_returns hj.settled hopen hfuel' false []
    have honward : Onward i k := ⟨hk, hle.trans hj.left_le⟩
    rw [hloop]
    exact ⟨_, _, rfl, honward.trans (onward_skipTag hk)⟩
  · exact ⟨_, _, rfl, (onward_of_reaches hj).trans (onward_skipTag hj.settled)⟩

theorem readComment_hangs {body : List Unichar} (s : Reader) (hi : i.Settled) (h : i.ahead = 45 :: 45 :: body)
    (hno : ¬[45, 45] <:+: body.dropWhile (· = 45)) (hlast : i.lastCharacter = 45) (fuel : Nat) :
    readComment fuel s i = none := by
  obtain ⟨j, hread, hj⟩ := readCharacterSequence_reaches minusChar hi
  rw [sequence_minusChar, h] at hread hj
  have hahead : j.ahead = body.dropWhile (· = 45) := hj.ahead
  have hcount : ((45 :: 45 :: body).takeWhile (· = 45)).length ≥ 2 := by simp
  unfold readComment
  simp only [hread, if_pos hcount]
  rw [commentLoop_hangs hj.settled (by rwa [hahead]) (hj.lastCharacter.trans hlast)]

/-- The next token is a comment, and the document ends in it, right after a dash. -/
def CutOff (s : Reader) : Prop :=
  s.state = .main ∧ ∃ cs body, s.input.ahead = 60 :: cs ∧ cs.dropWhile isWhitespace = 33 :: 45 :: 45 :: body ∧
    ¬[45, 45] <:+: body.dropWhile (· = 45) ∧ cs.getLast? = some 45

theorem markup_reaches (hs : s.input.Settled) (h : s.input.ahead = 60 :: cs) :
    Reaches s.input (cs.dropWhile isWhitespace) (skip whitespaceChar s.input.readNextChar) := by
  have hnext := readNextChar_cons hs h
  have hspace := skip_reaches whitespaceChar hnext.settled
  rw [sequence_whitespaceChar, hnext.ahead] at hspace
  exact hnext.trans hspace

theorem readMarkup_returns (hs : s.input.Settled) (h : s.input.ahead = 60 :: cs)
    (hstate : s.state = .main) (hcut : ¬CutOff s) (hfuel : s.input.left < fuel) :
    ∃ t s', readMarkup fuel s = some (t, s') ∧ s'.input.Settled ∧ s'.input.left < s.input.left := by
  have hlt : s.input.readNextChar.left < s.input.left := left_readNextChar_lt (ahead_eq_cons.mp h).1
  have hspace := onward_skip whitespaceChar (readNextChar_settled s.input)
  have hmarkup := markup_reaches hs h
  -- whatever follows, the first character has been consumed
  suffices hsuffices : ∃ t s', readMarkup fuel s = some (t, s') ∧
      Onward (skip whitespaceChar s.input.readNextChar) s'.input by
    obtain ⟨t, s', hread, honward⟩ := hsuffices
    exact ⟨t, s', hread, honward.settled, (hspace.trans honward).left_le.trans_lt hlt⟩
  unfold readMarkup
  generalize skip whitespaceChar s.input.readNextChar = i at hspace hmarkup
  simp only
  split_ifs with hend hques hslash hbang
  · exact ⟨_, _, rfl, hmarkup.settled, Nat.le_refl _⟩
  · exact ⟨_, _, rfl, onward_readPIStart s i⟩
  · exact ⟨_, _, rfl, onward_readEndTag s i⟩
  · have hhave : i.haveCurrentCharacter = true := Bool.not_eq_false _ ▸ hend
    have hahead : i.ahead = 33 :: i.following := ahead_eq_cons.mpr ⟨hhave, hbang, rfl⟩
    have hnext := readNextChar_cons hmarkup.settled hahead
    unfold readDeclaration
    simp only
    split_ifs with hend' hbracket hdash
    · exact ⟨_, _, rfl, onward_of_reaches hnext⟩
    · exact ⟨_, _, rfl, (onward_of_reaches hnext).trans (onward_readSection s _)⟩
    · have hhave' : i.readNextChar.haveCurrentCharacter = true := Bool.not_eq_false _ ▸ hend'
      have hcomment : i.readNextChar.ahead = 45 :: i.readNextChar.following := ahead_eq_cons.mpr ⟨hhave', hdash, rfl⟩
      have hclosed : ∀ body, i.readNextChar.following = 45 :: body →
          [45, 45] <:+: body.dropWhile (· = 45) ∨ i.readNextChar.lastCharacter ≠ 45 := by
        intro body hbody
        by_contra hopen
        rw [not_or, not_not] at hopen
        have hdrop : cs.dropWhile isWhitespace = 33 :: 45 :: 45 :: body := by
          rw [← hmarkup.ahead, hahead, ← hnext.ahead, hcomment, hbody]
        refine hcut ⟨hstate, cs, body, h, hdrop, hopen.1, ?_⟩
        have hlast : s.input.lastCharacter = 45 := by
          rw [← hmarkup.lastCharacter, ← hnext.lastCharacter]
          exact hopen.2
        rw [lastCharacter_of_cons h] at hlast
        have hne : cs ≠ [] := by
          rintro rfl
          cases hdrop
        rw [List.getLastD_eq_getLast?] at hlast
        rw [List.getLast?_eq_some_getLast hne] at hlast ⊢
        exact congrArg some hlast
      obtain ⟨t, s', hread, honward⟩ := readComment_returns s hnext.settled hcomment hclosed
        ((hnext.left_le.trans hmarkup.left_le).trans_lt hfuel)
      exact ⟨t, s', hread, (onward_of_reaches hnext).trans honward⟩
    · exact ⟨_, _, rfl, (onward_of_reaches hnext).trans (onward_skipTag hnext.settled)⟩
  · exact ⟨_, _, rfl, onward_readTagStart s hmarkup.settled⟩

theorem readNextToken_hangs (hs : s.input.Settled) (hcut : CutOff s) (fuel : Nat) : readNextToken env fuel s = none := by
  obtain ⟨hstate, cs, body, h, hdrop, hno, hlast⟩ := hcut
  have hmarkup := markup_reaches hs h
  rw [hdrop] at hmarkup
  obtain ⟨hhave₁, hbang, -⟩ := ahead_eq_cons.mp hmarkup.ahead
  have hnext := readNextChar_cons hmarkup.settled hmarkup.ahead
  obtain ⟨hhave₂, hdash, -⟩ := ahead_eq_cons.mp hnext.ahead
  have hlast' : (skip whitespaceChar s.input.readNextChar).readNextChar.lastCharacter = 45 := by
    rw [hnext.lastCharacter, hmarkup.lastCharacter, lastCharacter_of_cons h, List.getLastD_eq_getLast?, hlast]
    rfl
  rw [readNextToken_markup hstate h]
  unfold readMarkup
  simp only [marked, hhave₁, hbang]
  unfold readDeclaration
  simp only [hhave₂, hdash]
  exact readComment_hangs _ hnext.settled hnext.ahead hno hlast' fuel

theorem left_sequence_lt {acceptClasses : UInt32} (hi : i.Settled) (hhave : i.haveCurrentCharacter = true)
    (haccept : hasFlag acceptClasses (charClass i.currentCharacter) = true) :
    (i.readCharacterSequence acceptClasses).2.2.left < i.left := by
  have hahead : i.ahead = i.currentCharacter :: i.following := ahead_eq_cons.mpr ⟨hhave, rfl, rfl⟩
  have hreaches := skip_reaches acceptClasses hi
  refine hreaches.nearer.resolve_left fun hsame => ?_
  have hle := (sequence_consumes haccept i.following).length_le
  rw [← hahead, hsame, hahead, List.length_cons] at hle
  exact Nat.not_succ_le_self _ hle

theorem left_skipTag_lt (hi : i.Settled) (hhave : i.haveCurrentCharacter = true) : (skipTag i).left < i.left := by
  have hskip := skip_reaches (~~~gtChar) hi
  have hle := left_readNextChar_le (skip (~~~gtChar) i)
  rcases hskip.nearer with hsame | hlt
  · have hahead : (skip (~~~gtChar) i).ahead = i.currentCharacter :: i.following := by
      rw [hskip.ahead, hsame]
      exact ahead_eq_cons.mpr ⟨hhave, rfl, rfl⟩
    exact (left_readNextChar_lt (ahead_eq_cons.mp hahead).1).trans_le hskip.left_le
  · exact hle.trans_lt hlt

theorem not_isWhitespace_skip (hi : i.Settled) (hhave : (skip whitespaceChar i).haveCurrentCharacter = true) :
    ¬isWhitespace (skip whitespaceChar i).currentCharacter = true := by
  have hahead := ahead_eq_cons.mpr ⟨hhave, rfl, rfl⟩
  rw [(skip_reaches whitespaceChar hi).ahead] at hahead
  have hstop := sequence_stops hahead
  rw [hasFlag_whitespaceChar] at hstop
  exact Bool.eq_false_iff.mp hstop

theorem readText_progress (env : Environment) {ch : Unichar} (hs : s.input.Settled)
    (h : s.input.ahead = ch :: cs) (hch : ch ≠ 60) :
    (readText env s).2.input.Settled ∧ (readText env s).2.input.left < s.input.left := by
  obtain ⟨hhave, rfl, -⟩ := ahead_eq_cons.mp h
  exact ⟨(onward_sequence _ hs).settled, left_sequence_lt hs hhave (hasFlag_not_ltChar hch)⟩

theorem attributeName_progress (acceptClasses : UInt32) (hi : i.Settled) (hhave : i.haveCurrentCharacter = true)
    (haccept : i.currentCharacter ≠ 61 → hasFlag acceptClasses (charClass i.currentCharacter) = true)
    (hreject : hasFlag acceptClasses (charClass 61) = false) :
    Onward i (skip whitespaceChar (i.readCharacterSequence acceptClasses).2.2) ∧
      ((skip whitespaceChar (i.readCharacterSequence acceptClasses).2.2).currentCharacter ≠ 61 →
        (skip whitespaceChar (i.readCharacterSequence acceptClasses).2.2).left < i.left) := by
  have hname := onward_sequence acceptClasses hi
  have hspace := onward_skip whitespaceChar hname.settled
  refine ⟨hname.trans hspace, fun heq => ?_⟩
  by_cases hch : i.currentCharacter = 61
  · -- nothing has been read, so the equals sign is still there
    have hahead : i.ahead = 61 :: i.following := ahead_eq_cons.mpr ⟨hhave, hch, rfl⟩
    have hreaches := skip_reaches acceptClasses hi
    have hreaches' := skip_reaches whitespaceChar hreaches.settled
    rw [hahead, sequence_of_not hreject (by decide)] at hreaches
    rw [hreaches.ahead, sequence_of_not (by decide) (by decide)] at hreaches'
    exact absurd (ahead_eq_cons.mp hreaches'.ahead).2.1 heq
  · exact hspace.left_le.trans_lt (left_sequence_lt hi hhave (haccept hch))

theorem readInTag_progress (hs : s.input.Settled) :
    (readInTag env s).2.input.Settled ∧
      ((readInTag env s).1 = .eof ∨ (readInTag env s).2.input.left < s.input.left) := by
  have hspace := onward_skip whitespaceChar hs
  have hnot := not_isWhitespace_skip hs
  unfold readInTag
  generalize skip whitespaceChar s.input = i at hspace hnot
  have hname : ¬i.haveCurrentCharacter = false → ¬i.currentCharacter = 47 → ¬i.currentCharacter = 62 → _ :=
    fun hend hslash hgt => attributeName_progress (~~~(whitespaceChar ||| eqChar ||| gtChar ||| slashChar))
      hspace.settled (Bool.not_eq_false _ ▸ hend)
      (fun heq => (hasFlag_attributeName (hnot (Bool.not_eq_false _ ▸ hend)) heq hgt).1 hslash) (by decide)
  simp only
  split_ifs with hend hslash hgt hend' heq
  · exact ⟨hspace.settled, .inl rfl⟩
  · have hhave : i.haveCurrentCharacter = true := Bool.not_eq_false _ ▸ hend
    exact ⟨(onward_skipTag hspace.settled).settled,
      .inr ((left_skipTag_lt hspace.settled hhave).trans_le hspace.left_le)⟩
  · have hhave : i.haveCurrentCharacter = true := Bool.not_eq_false _ ▸ hend
    exact ⟨readNextChar_settled i, .inr ((left_readNextChar_lt hhave).trans_le hspace.left_le)⟩
  · exact ⟨(hname hend hslash hgt).1.settled, .inl rfl⟩
  · have honward := (hname hend hslash hgt).1
    have hvalue := onward_skip whitespaceChar (readNextChar_settled
      (skip whitespaceChar (i.readCharacterSequence (~~~(whitespaceChar ||| eqChar ||| gtChar ||| slashChar))).2.2))
    have hread := onward_sequence (~~~(whitespaceChar ||| gtChar ||| slashChar)) hvalue.settled
    refine ⟨hread.settled, .inr ?_⟩
    calc _ ≤ _ := (hvalue.trans hread).left_le
      _ < _ := left_readNextChar_lt (Bool.not_eq_false _ ▸ hend')
      _ ≤ _ := honward.left_le
      _ ≤ _ := hspace.left_le
  · have hprogress := hname hend hslash hgt
    exact ⟨hprogress.1.settled, .inr ((hprogress.2 heq).trans_le hspace.left_le)⟩

theorem declareEncoding_onward (env : Environment) (hi : i.Settled) (tag name value : Bytes) :
    Onward i (declareEncoding env tag name value i) := by
  unfold declareEncoding
  split_ifs
  · split <;> exact ⟨hi, Nat.le_refl _⟩
  · exact ⟨hi, Nat.le_refl _⟩

theorem readInPI_progress (hs : s.input.Settled) :
    (readInPI env s).2.input.Settled ∧
      ((readInPI env s).1 = .eof ∨ (readInPI env s).2.input.left < s.input.left) := by
  have hspace := onward_skip whitespaceChar hs
  have hnot := not_isWhitespace_skip hs
  unfold readInPI
  generalize skip whitespaceChar s.input = i at hspace hnot
  have hname : ¬i.haveCurrentCharacter = false → ¬(i.currentCharacter = 63 ∨ i.currentCharacter = 62) → _ :=
    fun hend hques => attributeName_progress (~~~(whitespaceChar ||| eqChar ||| quesChar ||| gtChar))
      hspace.settled (Bool.not_eq_false _ ▸ hend)
      (fun heq => (hasFlag_attributeName (hnot (Bool.not_eq_false _ ▸ hend)) heq (not_or.mp hques).2).2
        (not_or.mp hques).1) (by decide)
  simp only
  split_ifs with hend hques hend' heq
  · exact ⟨hspace.settled, .inl rfl⟩
  · have hhave : i.haveCurrentCharacter = true := Bool.not_eq_false _ ▸ hend
    exact ⟨(onward_skipTag hspace.settled).settled,
      .inr ((left_skipTag_lt hspace.settled hhave).trans_le hspace.left_le)⟩
  · exact ⟨(hname hend hques).1.settled, .inl rfl⟩
  · have honward := (hname hend hques).1
    have hvalue := onward_skip whitespaceChar (readNextChar_settled
      (skip whitespaceChar (i.readCharacterSequence (~~~(whitespaceChar ||| eqChar ||| quesChar ||| gtChar))).2.2))
    have hread := onward_sequence (~~~(whitespaceChar ||| quesChar ||| gtChar)) hvalue.settled
    have hencoding := declareEncoding_onward env hread.settled s.tag
    refine ⟨(hencoding _ _).settled, .inr ?_⟩
    calc _ ≤ _ := ((hvalue.trans hread).trans (hencoding _ _)).left_le
      _ < _ := left_readNextChar_lt (Bool.not_eq_false _ ▸ hend')
      _ ≤ _ := honward.left_le
      _ ≤ _ := hspace.left_le
  · have hprogress := hname hend hques
    have hencoding := declareEncoding_onward env hprogress.1.settled s.tag
    exact ⟨(hencoding _ _).settled, .inr ((hencoding _ _).left_le.trans_lt ((hprogress.2 heq).trans_le hspace.left_le))⟩

/-- **Progress.** Unless the next token is a comment that is cut off, a call returns, and it gets nearer to the end
of the document or is there. -/
theorem readNextToken_returns (env : Environment) (hs : s.input.Settled) (hcut : ¬CutOff s) (hfuel : s.input.left < fuel) :
    ∃ t s', readNextToken env fuel s = some (t, s') ∧ s'.input.Settled ∧
      (t = .eof ∨ s'.input.left < s.input.left) := by
  cases h : s.input.ahead with
  | nil => exact ⟨.eof, s, readNextToken_end h, hs, .inl rfl⟩
  | cons ch cs =>
    cases hstate : s.state with
    | main =>
      by_cases hch : ch = 60
      · subst hch
        obtain ⟨t, s', hread, hsettled, hless⟩ := readMarkup_returns (s := s.marked) hs h hstate hcut hfuel
        exact ⟨t, s', (readNextToken_markup hstate h).trans hread, hsettled, .inr hless⟩
      · have hprogress := readText_progress env (s := s.marked) hs h hch
        exact ⟨_, _, readNextToken_text hstate h hch, hprogress.1, .inr hprogress.2⟩
    | inTag => exact ⟨_, _, readNextToken_inTag hstate h, readInTag_progress (s := s.marked) hs⟩
    | inPI => exact ⟨_, _, readNextToken_inPI hstate h, readInPI_progress (s := s.marked) hs⟩

/-! ### More fuel -/

variable {fuel' : Nat}

theorem commentLoop_mono {loop : Bool} {value : Bytes} {r : Bytes × Input} (hle : fuel ≤ fuel')
    (h : commentLoop fuel loop value i = some r) : commentLoop fuel' loop value i = some r := by
  induction fuel generalizing fuel' loop value i with
  | zero => cases h
  | succ fuel ih =>
    cases fuel' with
    | zero => exact absurd hle (Nat.not_succ_le_zero _)
    | succ fuel' =>
      rw [commentLoop] at h ⊢
      generalize (if loop = true then value ++ [45] else value) = value' at h ⊢
      simp only at h ⊢
      split_ifs at h ⊢
      · exact ih (Nat.le_of_succ_le_succ hle) h
      · exact h
      · exact h

theorem readNextToken_mono {r : Token × Reader} (hle : fuel ≤ fuel')
    (h : readNextToken env fuel s = some r) : readNextToken env fuel' s = some r := by
  have hcomment : ∀ {s i}, readComment fuel s i = some r → readComment fuel' s i = some r := by
    intro s i h
    unfold readComment at h ⊢
    simp only at h ⊢
    split_ifs at h ⊢ with hcount
    · split at h
      · cases h
      · next hloop =>
        rw [commentLoop_mono hle hloop]
        exact h
    · exact h
  have hmarkup : ∀ {s}, readMarkup fuel s = some r → readMarkup fuel' s = some r := by
    intro s h
    unfold readMarkup readDeclaration at h ⊢
    simp only at h ⊢
    split_ifs at h ⊢
    all_goals first | exact h | exact hcomment h
  cases hahead : s.input.ahead with
  | nil => rwa [readNextToken_end hahead] at h ⊢
  | cons ch cs =>
    cases hstate : s.state with
    | main =>
      by_cases hch : ch = 60
      · subst hch
        rw [readNextToken_markup hstate hahead] at h ⊢
        exact hmarkup h
      · rwa [readNextToken_text hstate hahead hch] at h ⊢
    | inTag => rwa [readNextToken_inTag hstate hahead] at h ⊢
    | inPI => rwa [readNextToken_inPI hstate hahead] at h ⊢

theorem readNextToken_unique {r r' : Token × Reader} (h : readNextToken env fuel s = some r)
    (h' : readNextToken env fuel' s = some r') : r = r' := by
  have hr := readNextToken_mono (Nat.le_max_left fuel fuel') h
  have hr' := readNextToken_mono (Nat.le_max_right fuel fuel') h'
  exact Option.some.inj (hr.symm.trans hr')

theorem readNext_mono {r : Token × Reader} (hle : fuel ≤ fuel') (h : readNext env fuel s = some r) :
    readNext env fuel' s = some r := by
  induction fuel generalizing fuel' s with
  | zero => cases h
  | succ fuel ih =>
    cases fuel' with
    | zero => exact absurd hle (Nat.not_succ_le_zero _)
    | succ fuel' =>
      rw [readNext] at h ⊢
      split at h
      · cases h
      · next token s' htoken =>
        rw [readNextToken_mono hle htoken]
        simp only
        split_ifs at h ⊢
        · exact ih (Nat.le_of_succ_le_succ hle) h
        · exact h

theorem next_mono (hle : fuel ≤ fuel') (s : Reader) (r : Item × Reader)
    (h : (toBaseReader env fuel).next s = some r) : (toBaseReader env fuel').next s = some r := by
  unfold BaseReader.next at h ⊢
  split at h
  · cases h
  · next token s' hread =>
    have hread' : (toBaseReader env fuel').readNext s = some (token, s') := readNext_mono hle hread
    rw [hread']
    exact h

/-! ### Whole documents -/

theorem reads_mono {items : List Item} (hle : fuel ≤ fuel') (h : (toBaseReader env fuel).Reads s items) :
    (toBaseReader env fuel').Reads s items := by
  obtain ⟨heof, t, hemits⟩ := h
  exact ⟨heof, t, hemits.mono (next_mono hle)⟩

variable {t : Token}

theorem readNextToken_settled (hs : s.input.Settled) (h : readNextToken env fuel s = some (t, s')) :
    s'.input.Settled := by
  by_cases hcut : CutOff s
  · rw [readNextToken_hangs hs hcut] at h
    cases h
  · obtain ⟨t', s'', hread, hsettled, -⟩ := readNextToken_returns env hs hcut (Nat.lt_succ_self _)
    cases readNextToken_unique h hread
    exact hsettled

variable (env) in
/-- The states in which a reader looks for a token. -/
inductive Visits : Reader → Reader → Prop
  | refl (s : Reader) : Visits s s
  | step {fuel : Nat} {t : Token} {s s' s'' : Reader} :
      readNextToken env fuel s = some (t, s') → Visits s' s'' → Visits s s''

theorem Visits.trans {s'' : Reader} (h : Visits env s s') (h' : Visits env s' s'') : Visits env s s'' := by
  induction h with
  | refl => exact h'
  | step htoken _ ih => exact .step htoken (ih h')

theorem readNext_visits (h : readNext env fuel s = some (t, s')) : Visits env s s' := by
  induction fuel generalizing s with
  | zero => cases h
  | succ fuel ih =>
    rw [readNext] at h
    split at h
    · cases h
    · next token s₁ htoken =>
      split_ifs at h
      · exact .step htoken (ih h)
      · cases h
        exact .step htoken (.refl _)

variable (env) in
/-- Every call of `readNext` returns, whatever the calls before it were, and one of them reports the end of the
document or an error. -/
structure Terminates (s : Reader) : Prop where
  returns : ∀ fuel items s', Emits (toBaseReader env fuel).next s items s' →
    ∃ fuel' t s'', readNext env fuel' s' = some (t, s'')
  ends : ∃ fuel items last s', Emits (toBaseReader env fuel).next s (items ++ [last]) s' ∧
    (last = .eof ∨ last = .error)

theorem next_of_readNext (h : readNext env fuel s = some (t, s')) :
    (toBaseReader env fuel).next s = some (.make t s'.tag s'.name s'.value, s') := by
  have hread : (toBaseReader env fuel).readNext s = some (t, s') := h
  rw [BaseReader.next, hread]
  rfl

theorem readNext_of_next {item : Item} (h : (toBaseReader env fuel).next s = some (item, s')) :
    ∃ t, readNext env fuel s = some (t, s') := by
  unfold BaseReader.next at h
  split at h
  · cases h
  · next token s'' hread =>
    cases h
    exact ⟨token, hread⟩

theorem visits_of_emits {items : List Item} (h : Emits (toBaseReader env fuel).next s items s') : Visits env s s' := by
  induction h with
  | nil => exact .refl _
  | cons hnext _ ih =>
    obtain ⟨t, hread⟩ := readNext_of_next hnext
    exact (readNext_visits hread).trans ih

theorem Visits.settled (h : Visits env s s') (hs : s.input.Settled) : s'.input.Settled := by
  induction h with
  | refl => exact hs
  | step htoken _ ih => exact ih (readNextToken_settled hs htoken)

theorem readNext_returns (hs : s.input.Settled) (hsafe : ∀ s', Visits env s s' → ¬CutOff s')
    (hfuel : s.input.left < fuel) :
    ∃ t s', readNext env fuel s = some (t, s') ∧ (t = .eof ∨ s'.input.left < s.input.left) := by
  induction fuel generalizing s with
  | zero => exact absurd hfuel (Nat.not_lt_zero _)
  | succ fuel ih =>
    obtain ⟨t, s', htoken, hs', hless⟩ := readNextToken_returns env hs (hsafe s (.refl s)) hfuel
    rw [readNext, htoken]
    simp only
    split_ifs with hignored
    · have hlt : s'.input.left < s.input.left := by
        refine hless.resolve_left ?_
        rintro rfl
        cases hignored
      obtain ⟨t', s'', hread, hless'⟩ := ih hs' (fun s'' hvisits => hsafe s'' (.step htoken hvisits)) (by omega)
      exact ⟨t', s'', hread, hless'.imp_right fun h => h.trans hlt⟩
    · exact ⟨t, s', rfl, hless⟩

theorem readNext_of_ignored (htoken : readNextToken env fuel s = some (t, s'))
    (hignored : isIgnored t s' = true) (hle : fuel ≤ fuel' + 1) :
    readNext env (fuel' + 1) s = readNext env fuel' s' := by
  rw [readNext, readNextToken_mono hle htoken]
  exact if_pos hignored

theorem readNext_of_reported (htoken : readNextToken env fuel s = some (t, s'))
    (hreported : isIgnored t s' = false) (hle : fuel ≤ fuel' + 1) : readNext env (fuel' + 1) s = some (t, s') := by
  rw [readNext, readNextToken_mono hle htoken]
  simp only [hreported]
  rfl

theorem readNext_hangs_of_ignored (htoken : readNextToken env fuel s = some (t, s'))
    (hignored : isIgnored t s' = true) (hhangs : ∀ fuel, readNext env fuel s' = none) (fuel' : Nat) :
    readNext env fuel' s = none := by
  cases fuel' with
  | zero => rfl
  | succ fuel' =>
    rw [readNext]
    split
    · rfl
    · next token s'' htoken' =>
      cases readNextToken_unique htoken htoken'
      rw [if_pos hignored, hhangs]

theorem exists_hanging_call (h : Visits env s s') (hs : s.input.Settled) (hcut : CutOff s') :
    ∃ fuel items s₁, Emits (toBaseReader env fuel).next s items s₁ ∧ ∀ fuel', readNext env fuel' s₁ = none := by
  induction h with
  | refl s =>
    refine ⟨0, [], s, .nil s, fun fuel' => ?_⟩
    cases fuel' with
    | zero => rfl
    | succ fuel' => rw [readNext, readNextToken_hangs hs hcut]
  | @step fuel t s s' s'' htoken _ ih =>
    obtain ⟨fuel', items, s₁, hemits, hhangs⟩ := ih (readNextToken_settled hs htoken) hcut
    have hle : fuel ≤ max fuel fuel' + 1 := by omega
    have hmono : ∀ {items s s'}, Emits (toBaseReader env fuel').next s items s' →
        Emits (toBaseReader env (max fuel fuel' + 1)).next s items s' := fun h => h.mono (next_mono (by omega))
    cases hignored : isIgnored t s' with
    | false =>
      have hread := next_of_readNext (readNext_of_reported htoken hignored hle)
      exact ⟨_, _, s₁, .cons hread (hmono hemits), hhangs⟩
    | true =>
      cases hemits with
      | nil => exact ⟨0, [], s, .nil s, readNext_hangs_of_ignored htoken hignored hhangs⟩
      | cons hnext hrest =>
        -- the first call from the next state is the first call from this one
        obtain ⟨t', hread⟩ := readNext_of_next hnext
        have hread' := readNext_mono (Nat.le_max_right fuel fuel') hread
        rw [← readNext_of_ignored htoken hignored hle] at hread'
        exact ⟨_, _, s₁, .cons (next_of_readNext hread') (hmono hrest), hhangs⟩

theorem new_settled (stream : InternalStream) (mode : WhitespaceMode) :
    ((new stream).setWhitespaceMode mode).input.Settled := readNextChar_settled _

/-- **Termination.** Reading a document ends, with every call returning, exactly if the reader does not come to a
comment in which the document ends right after a dash. -/
theorem terminates_iff_not_cutOff (env : Environment) (stream : InternalStream) (mode : WhitespaceMode) :
    Terminates env ((new stream).setWhitespaceMode mode) ↔
      ∀ s, Visits env ((new stream).setWhitespaceMode mode) s → ¬CutOff s := by
  have hsettled := new_settled stream mode
  generalize (new stream).setWhitespaceMode mode = s₀ at hsettled
  constructor
  · intro hterminates s hvisits hcut
    obtain ⟨fuel, items, s₁, hemits, hhangs⟩ := exists_hanging_call hvisits hsettled hcut
    obtain ⟨fuel', t, s₂, hread⟩ := hterminates.returns fuel items s₁ hemits
    rw [hhangs fuel'] at hread
    cases hread
  · intro hsafe
    have hsafe' : ∀ {s}, Visits env s₀ s → ∀ s', Visits env s s' → ¬CutOff s' := fun hvisits s' hvisits' =>
      hsafe s' (hvisits.trans hvisits')
    refine ⟨fun fuel items s hemits => ?_, ?_⟩
    · have hvisits := visits_of_emits hemits
      obtain ⟨t, s', hread, -⟩ :=
        readNext_returns (hvisits.settled hsettled) (hsafe' hvisits) (Nat.lt_succ_self s.input.left)
      exact ⟨_, t, s', hread⟩
    · -- the reader is done after at most one call for every byte
      have hstep : ∀ s, Visits env s₀ s ∧ s.input.left ≤ s₀.input.left →
          ∃ item s', (toBaseReader env (s₀.input.left + 1)).next s = some (item, s') ∧
            (item = .eof ∨ (Visits env s₀ s' ∧ s'.input.left ≤ s₀.input.left) ∧ s'.input.left < s.input.left) := by
        rintro s ⟨hvisits, hle⟩
        obtain ⟨t, s', hread, hless⟩ :=
          readNext_returns (hvisits.settled hsettled) (hsafe' hvisits) (Nat.lt_succ_of_le hle)
        refine ⟨_, s', next_of_readNext hread, ?_⟩
        rcases hless with rfl | hlt
        · exact .inl rfl
        · exact .inr ⟨⟨hvisits.trans (readNext_visits hread), hlt.le.trans hle⟩, hlt⟩
      obtain ⟨items, s, hemits⟩ := Emits.exists_stop (fun s => s.input.left) hstep s₀ ⟨.refl s₀, Nat.le_refl _⟩
      exact ⟨_, items, .eof, s, hemits, .inl rfl⟩

/-- The document `<!--` is cut off after the dashes that begin the comment, and the first call does not return. -/
theorem unfinished_comment_hangs :
    ¬Terminates ⟨DefaultEntityHandler.expandEntityReference, fun _ => none⟩
      ((new ⟨lit "<!--", 0⟩).setWhitespaceMode .trimWS) := by
  intro hterminates
  have hahead : ((new ⟨lit "<!--", 0⟩).setWhitespaceMode .trimWS).input.ahead = [60, 33, 45, 45] := by decide +kernel
  have hcut : CutOff ((new ⟨lit "<!--", 0⟩).setWhitespaceMode .trimWS) :=
    ⟨rfl, [33, 45, 45], [], hahead, by decide, by decide, rfl⟩
  obtain ⟨fuel, items, s, hemits, hhangs⟩ := exists_hanging_call (.refl _) (new_settled _ _) hcut
  obtain ⟨fuel', t, s', hread⟩ := hterminates.returns fuel items s hemits
  rw [hhangs fuel'] at hread
  cases hread

end Reader

end Afl.Io.Xml
