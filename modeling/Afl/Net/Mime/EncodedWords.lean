import Afl.Lib.Split
import Afl.Net.Mime.Parser

/-!
# Encoded words in a header

Every header is made of encoded words and other text. What `decodeHeader` keeps of that text.
-/

namespace Afl.Net

open Charset

/-- `=?charset?encoding?text?=`, each part being as short as possible. -/
structure EncodedWord where
  charset : Bytes
  encoding : Bytes
  text : Bytes
  charset_plain : 63 ∉ charset
  encoding_plain : 63 ∉ encoding
  text_plain : ¬[63, 61] <:+: text

namespace EncodedWord

/-- What comes after `=?`. -/
def inner (w : EncodedWord) : Bytes := w.charset ++ 63 :: (w.encoding ++ 63 :: (w.text ++ [63, 61]))

def bytes (w : EncodedWord) : Bytes := 61 :: 63 :: w.inner

/-- The text, decoded according to the encoding and the character set, if that is known. -/
def decode (createCharset : CharsetFactory) (w : EncodedWord) : Bytes :=
  let word :=
    if strLCase w.encoding = lit "b" then Base64.decode w.text
    else QuotedPrintable.decode (w.text.map fun c => if c = 95 then 32 else c)
  (createCharset (strLCase w.charset)).elim word fun decode => decode word

end EncodedWord

/-- There are two question marks, and the end of an encoded word after them. -/
def Completes (s : Bytes) : Prop :=
  ∃ charset encoding text rest, s = charset ++ 63 :: (encoding ++ 63 :: (text ++ 63 :: 61 :: rest))

/-- There is a complete encoded word. -/
def HasWord (s : Bytes) : Prop := ∃ before after, s = before ++ 61 :: 63 :: after ∧ Completes after

/-- A header: encoded words, with the texts before them, and the text after the last one. -/
structure HeaderText where
  words : List (Bytes × EncodedWord)
  last : Bytes
  plain : ∀ x ∈ words, ¬[61, 63] <:+: x.1
  noWord : ¬HasWord last

namespace HeaderText

def wordBytes (x : Bytes × EncodedWord) : Bytes := x.1 ++ x.2.bytes

def bytes (h : HeaderText) : Bytes := h.words.flatMap wordBytes ++ h.last

/-- White space between words is left out. -/
def decodeWord (createCharset : CharsetFactory) (x : Bytes × EncodedWord) : Bytes :=
  (if x.1.all charIsSpace then [] else x.1) ++ x.2.decode createCharset

def decoded (createCharset : CharsetFactory) (h : HeaderText) : Bytes :=
  match h.words with
  | [] => h.last
  | (first, word) :: words =>
    first ++ word.decode createCharset ++ words.flatMap (decodeWord createCharset) ++ h.last

end HeaderText

/-! ### Cutting -/

theorem cutAt_of_append {a b : UInt8} (hab : a ≠ b) {t : Bytes} (h : ¬[a, b] <:+: t) (rest : Bytes) :
    cutAt a b (t ++ a :: b :: rest) = some (t, rest) := by
  induction t with
  | nil => rw [List.nil_append, cutAt, if_pos ⟨rfl, rfl⟩]
  | cons c t ih =>
    rw [List.infix_cons_iff, not_or, pair_prefix_cons] at h
    have hc : ¬(c = a ∧ (t ++ a :: b :: rest).head? = some b) := by
      rintro ⟨hc, hhead⟩
      rcases t with _ | ⟨d, t⟩
      · exact hab (Option.some.inj hhead)
      · exact h.1 ⟨hc, hhead⟩
    rw [List.cons_append, cutAt_of_not hc, ih h.2]
    rfl

theorem not_infix_of_cutAt {a b : UInt8} {s before after : Bytes} (h : cutAt a b s = some (before, after)) :
    ¬[a, b] <:+: before := by
  fun_induction cutAt a b s generalizing before with
  | case1 c d rest hfound =>
    cases h
    exact fun h => absurd h.length_le (by simp)
  | case2 c d rest hnot ih =>
    rw [Option.map_eq_some_iff] at h
    obtain ⟨⟨before', after'⟩, hcut, heq⟩ := h
    cases heq
    rw [List.infix_cons_iff, not_or, pair_prefix_cons]
    refine ⟨?_, ih hcut⟩
    rintro ⟨hc, hhead⟩
    have hrest := eq_of_cutAt hcut
    rcases before' with _ | ⟨d', before'⟩
    · exact absurd hhead (by simp)
    · rw [List.cons_append] at hrest
      exact hnot ⟨hc, (List.cons.inj hrest).1.trans (Option.some.inj hhead)⟩
  | case3 => cases h

theorem suffix_of_cutAt {a b : UInt8} (hab : a ≠ b) {s before after t u : Bytes} (h : cutAt a b s = some (before, after))
    (hs : s = t ++ a :: b :: u) : u <:+ after := by
  fun_induction cutAt a b s generalizing before t with
  | case1 c d rest hfound =>
    cases h
    rcases t with _ | ⟨c', _ | ⟨d', t⟩⟩
    · obtain ⟨-, hs⟩ := List.cons.inj hs
      obtain ⟨-, rfl⟩ := List.cons.inj hs
      exact List.suffix_rfl
    · obtain ⟨-, hs⟩ := List.cons.inj hs
      have hd := (List.cons.inj hs).1
      exact absurd (hd.symm.trans hfound.2) hab
    · obtain ⟨-, hs⟩ := List.cons.inj hs
      obtain ⟨-, rfl⟩ := List.cons.inj hs
      exact ⟨t ++ [a, b], by simp⟩
  | case2 c d rest hnot ih =>
    rw [Option.map_eq_some_iff] at h
    obtain ⟨⟨before', after'⟩, hcut, heq⟩ := h
    cases heq
    rcases t with _ | ⟨c', t⟩
    · obtain ⟨hc, hs⟩ := List.cons.inj hs
      exact absurd ⟨hc, (List.cons.inj hs).1⟩ hnot
    · exact ih hcut (List.cons.inj hs).2
  | case3 => cases h

theorem suffix_of_first {c : UInt8} {before after t u : Bytes} (h : before ++ c :: after = t ++ c :: u) (hbefore : c ∉ before) :
    u <:+ after := by
  rcases List.append_eq_append_iff.1 h with ⟨w, rfl, hw⟩ | ⟨w, rfl, hw⟩
  · rcases w with _ | ⟨d, w⟩
    · obtain ⟨-, rfl⟩ := List.cons.inj hw
      exact List.suffix_rfl
    · obtain ⟨-, rfl⟩ := List.cons.inj hw
      exact ⟨w ++ [c], by simp⟩
  · rcases w with _ | ⟨d, w⟩
    · obtain ⟨-, rfl⟩ := List.cons.inj hw
      exact List.suffix_rfl
    · obtain ⟨rfl, -⟩ := List.cons.inj hw
      exact absurd (by simp) hbefore

/-! ### Words -/

theorem Completes.of_suffix {s t : Bytes} (h : Completes s) (hsuffix : s <:+ t) : Completes t := by
  obtain ⟨charset, encoding, text, rest, rfl⟩ := h
  obtain ⟨before, rfl⟩ := hsuffix
  exact ⟨before ++ charset, encoding, text, rest, by rw [List.append_assoc]⟩

theorem encodedWord_inner (createCharset : CharsetFactory) (w : EncodedWord) (rest : Bytes) :
    encodedWord createCharset (w.inner ++ rest) = .ok (w.decode createCharset, rest) := by
  obtain ⟨charset, encoding, text, hcharset, hencoding, htext⟩ := w
  have hfind : ∀ {part : Bytes} (after : Bytes), 63 ∉ part →
      (part ++ 63 :: after).findIdx? (· = 63) = some part.length := fun after hpart =>
    Split.findIdx?_append (fun x hx => decide_eq_false fun heq => hpart (heq ▸ hx)) rfl
  have hinner : EncodedWord.inner ⟨charset, encoding, text, hcharset, hencoding, htext⟩ ++ rest =
      charset ++ 63 :: (encoding ++ 63 :: (text ++ 63 :: 61 :: rest)) := by
    rw [EncodedWord.inner]
    simp only [List.append_assoc, List.cons_append, List.nil_append]
  rw [hinner, encodedWord, hfind _ hcharset]
  dsimp only
  rw [List.take_left, Split.drop_append, hfind _ hencoding]
  dsimp only
  rw [List.take_left, Split.drop_append, cutAt_of_append (by decide) htext]
  rfl

theorem encodedWord_cases (createCharset : CharsetFactory) (s : Bytes) :
    (∃ (w : EncodedWord) (rest : Bytes), s = w.inner ++ rest) ∨
      ¬Completes s ∧ ∃ rest, encodedWord createCharset s = .error rest ∧ rest.length ≤ s.length := by
  rcases Split.cases (fun c : UInt8 => decide (c = 63)) s with hs | ⟨charset, c, s₁, rfl, hc, hcharset⟩
  · refine .inr ⟨?_, s, by rw [encodedWord, Split.findIdx?_none hs], Nat.le_refl _⟩
    rintro ⟨charset, encoding, text, rest, rfl⟩
    exact absurd (hs 63 (by simp)) (by decide)
  · obtain rfl := of_decide_eq_true hc
    have hplain : 63 ∉ charset := fun hmem => absurd (hcharset 63 hmem) (by decide)
    rcases Split.cases (fun c : UInt8 => decide (c = 63)) s₁ with hs₁ | ⟨encoding, c, s₂, rfl, hc, hencoding⟩
    · refine .inr ⟨?_, s₁, ?_, by simp; omega⟩
      · rintro ⟨charset', encoding, text, rest, heq⟩
        obtain ⟨before, rfl⟩ := suffix_of_first heq hplain
        exact absurd (hs₁ 63 (by simp)) (by decide)
      · rw [encodedWord, Split.findIdx?_append hcharset rfl]
        dsimp only
        rw [Split.drop_append, Split.findIdx?_none hs₁]
    · obtain rfl := of_decide_eq_true hc
      have hplain' : 63 ∉ encoding := fun hmem => absurd (hencoding 63 hmem) (by decide)
      rcases hcut : cutAt 63 61 s₂ with _ | ⟨text, rest⟩
      · refine .inr ⟨?_, s₂, ?_, by simp; omega⟩
        · rintro ⟨charset', encoding', text, rest, heq⟩
          obtain ⟨before, hbefore⟩ := suffix_of_first heq hplain
          rw [← List.append_assoc] at hbefore
          obtain ⟨before', rfl⟩ := suffix_of_first hbefore.symm hplain'
          exact cutAt_eq_none_iff.1 hcut ⟨before' ++ text, rest, by simp⟩
        · rw [encodedWord, Split.findIdx?_append hcharset rfl]
          dsimp only
          rw [Split.drop_append, Split.findIdx?_append hencoding rfl]
          dsimp only
          rw [Split.drop_append, hcut]
      · have htext := not_infix_of_cutAt hcut
        have hs₂ := eq_of_cutAt hcut
        subst hs₂
        refine .inl ⟨⟨charset, encoding, text, hplain, hplain', htext⟩, rest, ?_⟩
        rw [EncodedWord.inner]
        simp only [List.append_assoc, List.cons_append, List.nil_append]

/-! ### Headers -/

theorem decodeWords_last (createCharset : CharsetFactory) (first : Bool) {last : Bytes} (h : ¬HasWord last) :
    decodeWords createCharset first last = last ↔ ¬[61, 63] <:+: last := by
  rw [← cutAt_eq_none_iff, decodeWords]
  split
  · next hcut => exact iff_of_true rfl hcut
  · next before after hcut =>
    refine iff_of_false ?_ fun hnone => by rw [hcut] at hnone; cases hnone
    have hlast := eq_of_cutAt hcut
    rcases encodedWord_cases createCharset after with ⟨w, rest, rfl⟩ | ⟨-, rest, hword, hlength⟩
    · refine absurd ⟨before, w.inner ++ rest, hlast, ?_⟩ h
      exact ⟨w.charset, w.encoding, w.text, rest, by rw [EncodedWord.inner]; simp⟩
    · dsimp only
      split
      · next s hs =>
        rw [hword] at hs
        cases hs
        intro heq
        have hlen := congrArg List.length heq
        rw [hlast] at hlen
        split_ifs at hlen
        · simp at hlen
          omega
        · simp at hlen
          omega
      · next hs =>
        rw [hword] at hs
        cases hs

/-- What the loop of `decodeHeader` has written when it comes to the text after the last word. -/
def written (createCharset : CharsetFactory) (first : Bool) : List (Bytes × EncodedWord) → Bytes
  | [] => []
  | (t, w) :: words =>
    (if first || !t.all charIsSpace then t else []) ++ w.decode createCharset ++ written createCharset false words

theorem decodeWords_words (createCharset : CharsetFactory) (first : Bool) {words : List (Bytes × EncodedWord)}
    (h : ∀ x ∈ words, ¬[61, 63] <:+: x.1) (last : Bytes) :
    ∃ first', decodeWords createCharset first (words.flatMap HeaderText.wordBytes ++ last) =
      written createCharset first words ++ decodeWords createCharset first' last := by
  induction words generalizing first with
  | nil => exact ⟨first, rfl⟩
  | cons x words ih =>
    obtain ⟨t, w⟩ := x
    rw [List.forall_mem_cons] at h
    obtain ⟨first', hrest⟩ := ih false h.2
    refine ⟨first', ?_⟩
    have hsplit : ((t, w) :: words).flatMap HeaderText.wordBytes ++ last =
        t ++ 61 :: 63 :: (w.inner ++ (words.flatMap HeaderText.wordBytes ++ last)) := by
      rw [List.flatMap_cons, HeaderText.wordBytes, EncodedWord.bytes]
      simp only [List.append_assoc, List.cons_append]
    have hcut := cutAt_of_append (by decide) h.1 (w.inner ++ (words.flatMap HeaderText.wordBytes ++ last))
    have hword := encodedWord_inner createCharset w (words.flatMap HeaderText.wordBytes ++ last)
    rw [hsplit, decodeWords]
    split
    · next hnone =>
      rw [hcut] at hnone
      cases hnone
    · next before after hsome =>
      rw [hcut] at hsome
      cases hsome
      dsimp only
      split
      · next hs =>
        rw [hword] at hs
        cases hs
      · next hs =>
        rw [hword] at hs
        cases hs
        rw [hrest, written, List.append_assoc, List.append_assoc, List.append_assoc]

namespace HeaderText

theorem exists_bytes (header : Bytes) : ∃ h : HeaderText, h.bytes = header := by
  induction hn : header.length using Nat.strong_induction_on generalizing header with
  | _ n ih =>
    have hlast : ¬HasWord header → ∃ h : HeaderText, h.bytes = header := fun hnone =>
      ⟨⟨[], header, fun _ hx => absurd hx List.not_mem_nil, hnone⟩, rfl⟩
    rcases hcut : cutAt 61 63 header with _ | ⟨before, after⟩
    · apply hlast
      rintro ⟨t, u, rfl, -⟩
      exact cutAt_eq_none_iff.1 hcut ⟨t, u, by simp⟩
    · have hheader := eq_of_cutAt hcut
      rcases encodedWord_cases (fun _ => none) after with ⟨w, rest, rfl⟩ | ⟨hnone, -⟩
      · have hlength : rest.length < n := by
          rw [← hn, hheader]
          simp
          omega
        obtain ⟨h, hbytes⟩ := ih rest.length hlength rest rfl
        have hbefore := not_infix_of_cutAt hcut
        refine ⟨⟨(before, w) :: h.words, h.last, List.forall_mem_cons.2 ⟨hbefore, h.plain⟩, h.noWord⟩, ?_⟩
        rw [hheader, ← hbytes, bytes, bytes, List.flatMap_cons, wordBytes, EncodedWord.bytes]
        simp only [List.append_assoc, List.cons_append]
      · apply hlast
        rintro ⟨t, u, hu, hcompletes⟩
        exact hnone (hcompletes.of_suffix (suffix_of_cutAt (by decide) hcut hu))

theorem written_false (createCharset : CharsetFactory) (words : List (Bytes × EncodedWord)) :
    written createCharset false words = words.flatMap (decodeWord createCharset) := by
  induction words with
  | nil => rfl
  | cons x words ih =>
    obtain ⟨t, w⟩ := x
    have hkept : (if false || !t.all charIsSpace then t else []) = if t.all charIsSpace then [] else t := by
      cases t.all charIsSpace <;> rfl
    rw [written, ih, hkept, List.flatMap_cons, decodeWord]

theorem decoded_eq (createCharset : CharsetFactory) (h : HeaderText) :
    h.decoded createCharset = written createCharset true h.words ++ h.last := by
  obtain ⟨words, last, hplain, hnone⟩ := h
  rcases words with _ | ⟨⟨t, w⟩, words⟩
  · rfl
  · rw [written, written_false]
    rfl

end HeaderText

/-- **What a header decodes to.** -/
theorem decodeHeader_iff (createCharset : CharsetFactory) :
    (∀ header, ∃ h : HeaderText, h.bytes = header) ∧
      ∀ h : HeaderText, decodeHeader createCharset h.bytes = h.decoded createCharset ↔ ¬[61, 63] <:+: h.last := by
  refine ⟨HeaderText.exists_bytes, fun h => ?_⟩
  obtain ⟨first, hwords⟩ := decodeWords_words createCharset true h.plain h.last
  rw [decodeHeader, HeaderText.bytes, hwords, h.decoded_eq, List.append_cancel_left_eq]
  exact decodeWords_last createCharset first h.noWord

/-- A word that is not complete. -/
theorem decodeHeader_incomplete :
    ¬HasWord (lit "=?foo") ∧ decodeHeader (fun _ => none) (lit "=?foo") ≠ lit "=?foo" := by
  have hnone : ¬HasWord (lit "=?foo") := by
    rintro ⟨before, after, hheader, charset, encoding, text, rest, rfl⟩
    have hlength := congrArg List.length hheader
    have hfive : (lit "=?foo").length = 5 := rfl
    rw [hfive] at hlength
    simp at hlength
    omega
  refine ⟨hnone, fun heq => ?_⟩
  exact (decodeWords_last (fun _ => none) true hnone).1 heq ⟨[], lit "foo", rfl⟩

end Afl.Net
