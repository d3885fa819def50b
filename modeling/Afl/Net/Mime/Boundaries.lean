import Afl.Lib.Split
import Afl.Net.Mime.Content
import Afl.Net.Mime.Forms
import Mathlib.Order.Interval.Finset.Nat

/-!
# Boundaries

When the boundary that `finish` chooses is found only where it was written.
-/

namespace Afl.Net

open Lines MimeBuilder MimeParser

/-! ### Calls -/

/-- The calls, with those for forms. -/
inductive FormCall
  | content (c : Call)
  | addFormField (name : Bytes)
  | addFormFile (name fileName : Bytes)
deriving DecidableEq

namespace MimeBuilder

def formCall (b : MimeBuilder) : FormCall → MimeBuilder
  | .content c => b.call c
  | .addFormField name => b.addFormField name
  | .addFormFile name fileName => b.addFormFile name fileName

def runForm (ctype : Bytes) (calls : List FormCall) : MimeBuilder := calls.foldl formCall (create ctype)

end MimeBuilder

/-! ### What is recognised -/

/-- `PartIterator` takes the line for a boundary. -/
def Recognised (boundary line : Bytes) : Prop := isBoundaryLine boundary (stripCR line) = true

/-- The only lines that are recognised begin where boundaries were written. -/
def Unambiguous (b : MimeBuilder) (boundary : Bytes) : Prop :=
  ∀ before line, LineAt 10 (b.write false) before line → Recognised boundary line →
    ∃ es₁ e es₂, b.content = es₁ ++ e :: es₂ ∧ e.type = .boundaryElement ∧ before = es₁.flatMap Element.text

/-- The guesses in their order: `--000`, `--100` and so on. -/
def guess (n : Nat) : Guess := Guess.next^[n] .first

/-- The first guess that no element begins with. -/
structure FirstFree (content : List Element) (n : Nat) : Prop where
  free : ∀ e ∈ content, ¬(guess n).boundary <+: e.text
  first : ∀ m < n, ∃ e ∈ content, (guess m).boundary <+: e.text

def firstGuess (length : Nat) : Nat := shorter length - shorter 3

/-- The guesses of a length come one after another, among them each digit string of that length, and no other guess is
the same; only then the guesses grow. -/
structure Sweeps (length : Nat) : Prop where
  range : ∀ n, (guess n).digits.length = length ↔ firstGuess length ≤ n ∧ n < firstGuess length + 10 ^ length
  visited : ∀ digits : Bytes, digits.length = length → (∀ c ∈ digits, 48 ≤ c.toNat ∧ c.toNat ≤ 57) →
    ∃! n, (guess n).digits = digits
  grows : (guess (firstGuess length + 10 ^ length)).digits.length = length + 1

/-- How many boundaries can be at the start of an element: at most one of each length from 5 on. -/
def places (content : List Element) : Nat := (content.map fun e => e.text.length - 4).sum

/-- `finish` ends with this guess, the first one that is free. -/
structure Finishes (b : MimeBuilder) (n : Nat) : Prop where
  bounded : n ≤ places b.content
  firstFree : FirstFree b.content n
  chosen : findBoundary b.content .first = guess n
  returned : b.finish.2 = (guess n).digits

/-- Elements between two boundaries, or before the first or after the last one. -/
structure Segment (content es₁ seg es₂ : List Element) : Prop where
  split : content = es₁ ++ (seg ++ es₂)
  inner : ∀ e ∈ seg, e.type ≠ .boundaryElement
  left : es₁ = [] ∨ EndsAtBoundary es₁
  right : es₂ = [] ∨ ∃ e rest, es₂ = e :: rest ∧ e.type = .boundaryElement

def elementText (ctype : Bytes) (g : Guess) (e : Element) : Bytes :=
  match e.type with
  | .contentTypeElement => lit "Content-Type: " ++ ctype ++ lit "; boundary=" ++ g.digits ++ CRLF
  | _ => e.text

/-- The element as `finish` leaves it. -/
def filled (ctype : Bytes) (g : Guess) (e : Element) : Element := ⟨elementText ctype g e, e.type⟩

/-- The line begins with an element, which has at least the given number of bytes of it and no CR among them. -/
def Guarded (texts : List Bytes) (before : Bytes) (size : Nat) : Prop :=
  ∃ ts₁ t ts₂, texts = ts₁ ++ t :: ts₂ ∧ before = ts₁.flatten ∧ size ≤ t.length ∧ 13 ∉ t.take size

/-- No line of the content reads as the boundary, apart from those that begin with an element which is compared with it:
not those after a newline in an element, those of several elements, nor those with a CR. -/
def NoStrayBoundary (b : MimeBuilder) : Prop :=
  ∀ n, FirstFree b.content n → ∀ es₁ seg es₂, Segment b.content es₁ seg es₂ →
    ∀ before line, LineAt 10 (seg.flatMap (elementText b.contentType (guess n))) before line →
      ¬Guarded (seg.map (elementText b.contentType (guess n))) before (guess n).boundary.length →
      ¬Recognised (guess n).boundary line

/-! ### The choice of the boundary -/

variable {content : List Element}

theorem inUse_iff {boundary : Bytes} :
    inUse content boundary = true ↔ ∃ e ∈ content, boundary <+: e.text := by
  simp only [inUse, List.any_eq_true, List.isPrefixOf_iff_prefix]

theorem guess_succ (n : Nat) : (guess n).next = guess (n + 1) := (Function.iterate_succ_apply' Guess.next n .first).symm

theorem firstFree_findBoundary (content : List Element) :
    ∃ n, findBoundary content .first = guess n ∧ FirstFree content n := by
  have hsearch : ∀ g m, g = guess m → (∀ k < m, ∃ e ∈ content, (guess k).boundary <+: e.text) →
      ∃ n, findBoundary content g = guess n ∧ FirstFree content n := by
    intro g
    fun_induction findBoundary content g with
    | case1 g hused ih =>
      rintro m rfl hbefore
      apply ih (m + 1) (guess_succ m)
      intro k hk
      rcases Nat.lt_succ_iff_lt_or_eq.1 hk with hk | rfl
      · exact hbefore k hk
      · exact inUse_iff.1 hused
    | case2 g hfree =>
      rintro m rfl hbefore
      exact ⟨m, rfl, fun e he hstart => hfree (inUse_iff.2 ⟨e, he, hstart⟩), hbefore⟩
  exact hsearch .first 0 rfl fun k hk => absurd hk (Nat.not_lt_zero k)

theorem FirstFree.unique {m n : Nat} (hm : FirstFree content m) (hn : FirstFree content n) :
    m = n := by
  rcases Nat.lt_trichotomy m n with hlt | heq | hgt
  · obtain ⟨e, he, hstart⟩ := hn.first m hlt
    exact absurd hstart (hm.free e he)
  · exact heq
  · obtain ⟨e, he, hstart⟩ := hm.first n hgt
    exact absurd hstart (hn.free e he)

/-! ### The order of the guesses -/

theorem rank_guess (n : Nat) : rank (guess n).digits = n + 111 := by
  induction n with
  | zero => rfl
  | succ n ih =>
    rw [← guess_succ, Guess.next, rank_nextDigits (guess n).isDigit, ih]

theorem digits_guess_inj {m n : Nat} (h : (guess m).digits = (guess n).digits) : m = n := by
  have hrank := congrArg rank h
  rw [rank_guess, rank_guess] at hrank
  omega

theorem firstGuess_add {length : Nat} (h : 3 ≤ length) : firstGuess length + 111 = shorter length := by
  have hmono := shorter_mono h
  have hthree : shorter 3 = 111 := rfl
  rw [firstGuess]
  omega

theorem digits_guess_rank {digits : Bytes} (hlength : 3 ≤ digits.length)
    (h : ∀ c ∈ digits, 48 ≤ c.toNat ∧ c.toNat ≤ 57) : (guess (rank digits - 111)).digits = digits := by
  apply rank_inj (guess _).isDigit h
  have hlow : 111 ≤ rank digits := (shorter_mono hlength).trans (rank_range h).1
  rw [rank_guess]
  omega

theorem length_guess_iff {length : Nat} (h : 3 ≤ length) (n : Nat) :
    (guess n).digits.length = length ↔ firstGuess length ≤ n ∧ n < firstGuess length + 10 ^ length := by
  have hfirst := firstGuess_add h
  rw [length_eq_iff (guess n).isDigit, rank_guess, shorter]
  omega

theorem sweeps {length : Nat} (h : 3 ≤ length) : Sweeps length where
  range n := length_guess_iff h n
  visited digits hdigits hdigit := by
    refine ⟨rank digits - 111, digits_guess_rank (hdigits ▸ h) hdigit, fun n hn => ?_⟩
    rw [← hn, rank_guess]
    omega
  grows := by
    have hfirst := firstGuess_add h
    have hnext := firstGuess_add (h.trans (Nat.le_succ length))
    have hpos : 0 < 10 ^ (length + 1) := Nat.pow_pos (by decide)
    rw [shorter] at hnext
    rw [length_guess_iff (h.trans (Nat.le_succ length))]
    omega

/-! ### The guesses that are rejected -/

theorem three_le_length_guess (n : Nat) : 3 ≤ (guess n).digits.length := by
  by_contra hshort
  have hrank := (rank_range (guess n).isDigit).2.trans_le (shorter_mono (Nat.lt_of_not_le hshort))
  have hthree : shorter 3 = 111 := rfl
  rw [rank_guess] at hrank
  omega

theorem length_boundary (g : Guess) : g.boundary.length = g.digits.length + 2 := rfl

theorem guess_inj_of_start {t : Bytes} {m n : Nat} (hm : (guess m).boundary <+: t) (hn : (guess n).boundary <+: t)
    (hlength : (guess m).boundary.length = (guess n).boundary.length) : m = n := by
  have hboundary : (guess m).boundary = (guess n).boundary :=
    (List.prefix_of_prefix_length_le hm hn hlength.le).eq_of_length hlength
  exact digits_guess_inj (List.cons.inj (List.cons.inj hboundary).2).2

theorem card_startsWith (t : Bytes) (n : Nat) :
    ((Finset.range n).filter fun m => (guess m).boundary <+: t).card ≤ t.length - 4 := by
  have hlengths : ∀ m ∈ (Finset.range n).filter fun m => (guess m).boundary <+: t,
      (guess m).boundary.length ∈ Finset.Icc 5 t.length := by
    intro m hm
    have hlow := three_le_length_guess m
    rw [Finset.mem_Icc]
    refine ⟨?_, (Finset.mem_filter.1 hm).2.length_le⟩
    rw [length_boundary]
    omega
  have hinj : Set.InjOn (fun m => (guess m).boundary.length)
      ((Finset.range n).filter fun m => (guess m).boundary <+: t) :=
    fun m hm k hk => guess_inj_of_start (Finset.mem_filter.1 hm).2 (Finset.mem_filter.1 hk).2
  calc
    _ ≤ (Finset.Icc 5 t.length).card := Finset.card_le_card_of_injOn _ hlengths hinj
    _ = t.length - 4 := by
      rw [Nat.card_Icc]
      omega

theorem card_inUse (content : List Element) (n : Nat) :
    ((Finset.range n).filter fun m => ∃ e ∈ content, (guess m).boundary <+: e.text).card ≤ places content := by
  induction content with
  | nil => simp
  | cons e content ih =>
    have hsplit : ((Finset.range n).filter fun m => ∃ d ∈ e :: content, (guess m).boundary <+: d.text) =
        ((Finset.range n).filter fun m => (guess m).boundary <+: e.text) ∪
          (Finset.range n).filter fun m => ∃ d ∈ content, (guess m).boundary <+: d.text := by
      rw [← Finset.filter_or]
      simp only [List.exists_mem_cons_iff]
    calc
      _ ≤ _ := hsplit ▸ Finset.card_union_le _ _
      _ ≤ (e.text.length - 4) + places content := Nat.add_le_add (card_startsWith e.text n) ih
      _ = places (e :: content) := by rw [places, places, List.map_cons, List.sum_cons]

theorem FirstFree.le_places {n : Nat} (h : FirstFree content n) : n ≤ places content := by
  have hall : ((Finset.range n).filter fun m => ∃ e ∈ content, (guess m).boundary <+: e.text) = Finset.range n :=
    Finset.filter_true_of_mem fun m hm => h.first m (Finset.mem_range.1 hm)
  have hcard := card_inUse content n
  rwa [hall, Finset.card_range] at hcard

/-- The guesses of each length are all its digit strings, and the search ends before there are more of them than places
in the elements. -/
theorem finish_boundary_search :
    (∀ length, 3 ≤ length → Sweeps length) ∧ ∀ b : MimeBuilder, ∃ n, Finishes b n := by
  refine ⟨fun length => sweeps, fun b => ?_⟩
  obtain ⟨n, hchosen, hfree⟩ := firstFree_findBoundary b.content
  refine ⟨n, hfree.le_places, hfree, hchosen, ?_⟩
  rw [MimeBuilder.finish, hchosen]
  rfl

/-! ### The finished content -/

theorem closed_CRLF (t : Bytes) : Closed 10 (t ++ CRLF) := by
  have hend : t ++ CRLF = t ++ [13] ++ [10] := (List.append_assoc t [13] [10]).symm
  rw [hend]
  exact closed_concat _

theorem text_of_boundary {ctype boundary : Bytes} {e : Element}
    (he : e ∈ fillIn ctype boundary content) (htype : e.type = .boundaryElement) :
    ∃ dashes, e.text = boundary ++ dashes ++ CRLF ∧ ∀ c ∈ dashes, c = 45 := by
  induction content with
  | nil => cases he
  | cons d content ih =>
    rw [fillIn, List.mem_cons] at he
    rcases he with rfl | he
    · dsimp only at htype ⊢
      rw [htype]
      dsimp only
      split_ifs
      · exact ⟨[], by rw [List.append_nil], fun _ hc => absurd hc List.not_mem_nil⟩
      · exact ⟨[45, 45], rfl, by decide +kernel⟩
    · exact ih he

theorem fillIn_segment (ctype : Bytes) (g : Guess) {seg : List Element} (hseg : ∀ e ∈ seg, e.type ≠ .boundaryElement)
    (rest : List Element) :
    fillIn ctype g.boundary (seg ++ rest) =
      seg.map (filled ctype g) ++ fillIn ctype g.boundary rest := by
  induction seg with
  | nil => rfl
  | cons e seg ih =>
    rw [List.forall_mem_cons] at hseg
    obtain ⟨t, type⟩ := e
    rw [List.cons_append, fillIn, ih hseg.2, List.map_cons, List.cons_append]
    cases type with
    | boundaryElement => exact absurd rfl hseg.1
    | textElement => rfl
    | contentTypeElement => rfl

theorem fillIn_append (ctype boundary : Bytes) (es₁ es₂ : List Element) :
    ∃ es, fillIn ctype boundary (es₁ ++ es₂) = es ++ fillIn ctype boundary es₂ := by
  induction es₁ with
  | nil => exact ⟨[], rfl⟩
  | cons e es₁ ih =>
    obtain ⟨es, hes⟩ := ih
    rw [List.cons_append, fillIn, hes]
    exact ⟨_ :: es, rfl⟩

theorem fillIn_closed (ctype boundary : Bytes) {es₁ : List Element} (h : es₁ = [] ∨ EndsAtBoundary es₁)
    (es₂ : List Element) :
    ∃ es, fillIn ctype boundary (es₁ ++ es₂) = es ++ fillIn ctype boundary es₂ ∧ Closed 10 (es.flatMap Element.text) := by
  rcases List.eq_nil_or_concat' es₁ with rfl | ⟨init, ⟨t, type⟩, rfl⟩
  · exact ⟨[], rfl, .inl rfl⟩
  · have hends := h.resolve_left (by simp)
    rw [EndsAtBoundary, List.getLast?_concat] at hends
    have htype : type = .boundaryElement := Option.some.inj hends
    obtain ⟨es, hes⟩ := fillIn_append ctype boundary init (⟨t, type⟩ :: es₂)
    obtain ⟨u, hfilled⟩ : ∃ u, fillIn ctype boundary (⟨t, type⟩ :: es₂) =
        ⟨u, type⟩ :: fillIn ctype boundary es₂ := ⟨_, rfl⟩
    have hmem : Element.mk u type ∈ fillIn ctype boundary (⟨t, type⟩ :: es₂) := by
      rw [hfilled]
      exact List.mem_cons_self
    obtain ⟨dashes, htext, -⟩ := text_of_boundary hmem htype
    refine ⟨es ++ [⟨u, type⟩], ?_, ?_⟩
    · rw [List.append_assoc, List.singleton_append, hes, hfilled, List.append_assoc, List.singleton_append]
    · rw [List.flatMap_append, List.flatMap_singleton, htext, ← List.append_assoc]
      exact closed_CRLF _

theorem lineAt_boundary {g : Guess} {dashes before line : Bytes} (hdashes : ∀ c ∈ dashes, c = 45)
    (h : LineAt 10 (g.boundary ++ dashes ++ CRLF) before line) (hne : line ≠ []) : before = [] := by
  obtain ⟨rest, hsplit, hbefore, hline, -⟩ := h
  rcases hbefore with hnil | hlast
  · exact hnil
  · -- the newline at the end of `before` is the last byte
    exfalso
    have hplain : 10 ∉ g.boundary ++ dashes ++ [13] := by
      rw [List.mem_append, List.mem_append, not_or, not_or]
      refine ⟨⟨fun hmem => (boundary_plain g 10 hmem).2 rfl, fun hmem => ?_⟩, by decide⟩
      exact absurd (hdashes 10 hmem) (by decide)
    have hjoin : g.boundary ++ dashes ++ [13] ++ [10] = before ++ (line ++ rest) := by
      rw [← hsplit]
      simp [CRLF]
    obtain ⟨init, rfl⟩ := List.getLast?_eq_some_iff.1 hlast
    rw [List.append_assoc init, List.singleton_append] at hjoin
    rcases concat_eq_split hjoin with ⟨hnil, -, -⟩ | ⟨later, -, hmiddle⟩
    · exact hne (List.append_eq_nil_iff.1 hnil).1
    · apply hplain
      rw [hmiddle]
      exact List.mem_append_right _ List.mem_cons_self

/-! ### Lines that are recognised -/

theorem Recognised.start {boundary line : Bytes} (h : Recognised boundary line) : boundary <+: stripCR line := by
  rw [Recognised, isBoundaryLine, Bool.and_eq_true] at h
  exact List.isPrefixOf_iff_prefix.1 h.1

theorem Recognised.ne_nil {g : Guess} {line : Bytes} (h : Recognised g.boundary line) : line ≠ [] := by
  rintro rfl
  exact not_prefix_nil h.start

theorem Recognised.start_of_plain {boundary line rest t more : Bytes} (h : Recognised boundary line)
    (hline : line ++ rest = t ++ more) (hlength : boundary.length ≤ t.length) (hplain : 13 ∉ t.take boundary.length) :
    boundary <+: t := by
  refine List.IsPrefix.trans ?_ (List.take_prefix boundary.length t)
  have htake : (t.take boundary.length).length = boundary.length := List.length_take_of_le hlength
  have hsplit : line ++ rest = t.take boundary.length ++ (t.drop boundary.length ++ more) := by
    rw [hline, ← List.append_assoc, List.take_append_drop]
  rcases List.append_eq_append_iff.1 hsplit with ⟨d, hd, -⟩ | ⟨d, rfl, -⟩
  · -- the line ends before the bytes that are compared
    have hstrip : stripCR line = line := stripCR_of_not_mem fun hmem => hplain (hd ▸ List.mem_append_left d hmem)
    have hstart := h.start
    rw [hstrip] at hstart
    rw [hd]
    exact hstart.trans (List.prefix_append line d)
  · have hstart := h.start
    rw [stripCR_append, stripCR_of_not_mem hplain] at hstart
    exact List.prefix_of_prefix_length_le hstart (List.prefix_append _ _) htake.ge

theorem elementText_not_boundary (ctype : Bytes) (g : Guess) {e : Element} (he : ¬g.boundary <+: e.text) :
    ¬g.boundary <+: elementText ctype g e := by
  rw [elementText]
  split
  · rintro ⟨rest, hrest⟩
    have hhead : some (45 : UInt8) = some 67 := congrArg List.head? hrest
    exact absurd hhead (by decide)
  · exact he

variable {before line : Bytes}

theorem Guarded.not_recognised {ctype : Bytes} {g : Guess} {seg : List Element}
    (h : Guarded (seg.map (elementText ctype g)) before g.boundary.length)
    (hfree : ∀ e ∈ seg, ¬g.boundary <+: e.text) (hline : LineAt 10 (seg.flatMap (elementText ctype g)) before line) :
    ¬Recognised g.boundary line := by
  intro hrecognised
  obtain ⟨ts₁, t, ts₂, hsplit, hbefore, hlength, hplain⟩ := h
  obtain ⟨rest, htext, -, -, -⟩ := hline
  have hmore : line ++ rest = t ++ ts₂.flatten := by
    rw [List.flatMap_def, hsplit, List.flatten_append, List.flatten_cons, hbefore] at htext
    exact (List.append_cancel_left htext).symm
  obtain ⟨e, he, rfl⟩ := List.mem_map.1 (hsplit ▸ List.mem_append_right ts₁ List.mem_cons_self)
  exact elementText_not_boundary ctype g (hfree e he) (hrecognised.start_of_plain hmore hlength hplain)

/-! ### Boundaries begin lines -/

/-- The last element is a complete line. -/
def EndsLine (es : List Element) : Prop := ∃ init t, es = init ++ [text (t ++ CRLF)]

theorem endsLine_lineEnds (es : List Element) {n : Nat} (hn : n ≠ 0) : EndsLine (es ++ (List.replicate n CRLF).map text) := by
  obtain ⟨m, rfl⟩ := Nat.exists_eq_succ_of_ne_zero hn
  rw [List.replicate_succ', List.map_append, ← List.append_assoc]
  exact ⟨_, [], rfl⟩

/-- Each boundary comes after a complete line. -/
def Aligned (es : List Element) : Prop := ∀ es₁ e es₂, es = es₁ ++ e :: es₂ → e.type = .boundaryElement → EndsLine es₁

theorem Aligned.text {es : List Element} (h : Aligned es) (t : Bytes) : Aligned (es ++ [MimeBuilder.text t]) := by
  intro es₁ e es₂ hsplit htype
  rcases concat_eq_split hsplit with ⟨-, -, rfl⟩ | ⟨rest, rfl, hes⟩
  · cases htype
  · exact h es₁ e rest hes htype

theorem Aligned.texts {es : List Element} (h : Aligned es) (ts : List Bytes) : Aligned (es ++ ts.map MimeBuilder.text) := by
  induction ts generalizing es with
  | nil =>
    rw [List.map_nil, List.append_nil]
    exact h
  | cons t ts ih =>
    rw [List.map_cons, ← List.singleton_append, ← List.append_assoc]
    exact ih (h.text t)

theorem Aligned.boundary {es : List Element} (h : Aligned es) (hends : EndsLine es) (t : Bytes) :
    Aligned (es ++ [⟨t, .boundaryElement⟩]) := by
  intro es₁ e es₂ hsplit htype
  rcases concat_eq_split hsplit with ⟨-, rfl, -⟩ | ⟨rest, rfl, hes⟩
  · exact hends
  · exact h es₁ e rest hes htype

/-- Boundaries begin lines, and so does what comes next unless a line end is pending. -/
structure LineEnded (b : MimeBuilder) : Prop where
  aligned : Aligned b.content
  body : b.state = .body → b.pendingCRLF = false → EndsLine b.content

theorem lineEnded_create (ctype : Bytes) : LineEnded (create ctype) := by
  refine ⟨?_, nofun⟩
  by_cases hctype : ctype = []
  · rw [MimeBuilder.create, if_neg fun h => h hctype]
    intro es₁ e es₂ hsplit
    exact absurd hsplit (by simp)
  · rw [MimeBuilder.create, if_pos hctype]
    intro es₁ e es₂ hsplit htype
    rcases concat_eq_split (l := []) hsplit with ⟨-, -, rfl⟩ | ⟨rest, -, hes⟩
    · cases htype
    · exact absurd hes (by simp)

variable {b : MimeBuilder}

theorem LineEnded.startBody (h : LineEnded b) :
    LineEnded b.flushHeaderAndStartBody ∧ b.flushHeaderAndStartBody.state = .body := by
  obtain ⟨n, hn, hflush⟩ := b.flushHeaderAndStartBody_eq
  rw [hflush]
  refine ⟨⟨h.aligned.texts _, fun _ hpending => ?_⟩, rfl⟩
  by_cases hzero : n = 0
  · have hbody : b.state = .body := by
      cases hstate : b.state with
      | header => exact absurd hzero (hn hstate)
      | body => rfl
    dsimp only
    rw [hzero, append_lineEnds_zero]
    exact h.body hbody hpending
  · exact endsLine_lineEnds _ hzero

theorem LineEnded.addText (h : LineEnded b) {c : Call} {t : Bytes} (hc : c.text = some t) :
    LineEnded (b.call c) := by
  obtain ⟨n, pieces, hadds⟩ := call_text hc b
  refine ⟨?_, fun _ hpending => ?_⟩
  · rw [hadds.content]
    exact (h.aligned.texts _).texts _
  · rw [hadds.pending, Bool.or_eq_false_iff] at hpending
    obtain ⟨first, last, hpieces⟩ := hadds.ends hpending.2
    rw [hadds.content, hpieces, List.map_append, ← List.append_assoc]
    exact ⟨_, last, rfl⟩

theorem LineEnded.flushBytes (h : LineEnded b) (hbody : b.state = .body) (bytes : Bytes) :
    LineEnded (b.flushBytes bytes) ∧ EndsLine (b.flushBytes bytes).content := by
  by_cases hbytes : bytes = []
  · have hends : EndsLine (b.content ++ (List.replicate b.pendingCRLF.toNat CRLF).map MimeBuilder.text) := by
      cases hpending : b.pendingCRLF with
      | false =>
        rw [Bool.toNat_false, append_lineEnds_zero]
        exact h.body hbody hpending
      | true => exact endsLine_lineEnds _ one_ne_zero
    rw [hbytes, flushBytes_nil]
    exact ⟨⟨h.aligned.texts _, fun _ _ => hends⟩, hends⟩
  · have hends : EndsLine (b.content ++ [MimeBuilder.text (Charset.Base64.encode bytes ++ CRLF)] ++
        (List.replicate b.pendingCRLF.toNat CRLF).map MimeBuilder.text) := by
      cases b.pendingCRLF with
      | false =>
        rw [Bool.toNat_false, append_lineEnds_zero]
        exact ⟨_, _, rfl⟩
      | true => exact endsLine_lineEnds _ one_ne_zero
    rw [flushBytes_eq b hbytes]
    exact ⟨⟨(h.aligned.text _).texts _, fun _ _ => hends⟩, hends⟩

theorem LineEnded.fillBase64 (h : LineEnded b) (hbody : b.state = .body) (data : Bytes) :
    LineEnded (b.fillBase64 data) := by
  fun_induction MimeBuilder.fillBase64 b data with
  | case1 b => exact h
  | case2 b data hne room bytes hfull ih =>
    have hbytes : bytes ≠ [] := List.ne_nil_of_length_pos (by omega)
    refine ih (h.flushBytes hbody bytes).1 ?_
    rw [flushBytes_eq b hbytes]
    exact hbody
  | case3 b data hne room bytes hnot hshort ih => exact ih ⟨h.aligned, h.body⟩ hbody

theorem LineEnded.addBoundary (h : LineEnded b) : LineEnded b.addBoundary := by
  by_cases hends : EndsAtBoundary b.content
  · rw [addBoundary_again hends]
    exact h
  · obtain ⟨hstart, hbody⟩ := h.startBody
    obtain ⟨hflush, hline⟩ := hstart.flushBytes hbody b.flushHeaderAndStartBody.base64Accumulator.bytes
    rw [addBoundary_eq hends]
    exact ⟨hflush.aligned.boundary hline [], nofun⟩

theorem LineEnded.call (h : LineEnded b) (c : Call) : LineEnded (b.call c) := by
  cases c with
  | addHeader name value => exact h.addText rfl
  | addLine line => exact h.addText rfl
  | addLineQP line => exact h.addText rfl
  | addRawData data => exact h.addText rfl
  | addBase64 data => exact h.startBody.1.fillBase64 h.startBody.2 data
  | addBoundary => exact h.addBoundary

theorem lineEnded_runForm (ctype : Bytes) (calls : List FormCall) : LineEnded (runForm ctype calls) := by
  have hstep : ∀ b c, LineEnded b → LineEnded (b.formCall c) := by
    intro b c h
    cases c with
    | content c => exact h.call c
    | addFormField name => exact (h.call .addBoundary).call (.addHeader _ _)
    | addFormFile name fileName => exact (h.call .addBoundary).call (.addHeader _ _)
  exact List.foldlRecOn calls formCall (lineEnded_create ctype) fun b h c _ => hstep b c h

/-! ### Segments -/

theorem flatMap_segment (ctype : Bytes) (g : Guess) (seg : List Element) :
    (seg.map (filled ctype g)).flatMap Element.text = seg.flatMap (elementText ctype g) := List.flatMap_map ..

theorem Segment.closed {content es₁ seg es₂ : List Element} (h : Segment content es₁ seg es₂) (haligned : Aligned content)
    (hes₂ : es₂ ≠ []) (ctype : Bytes) (g : Guess) : Closed 10 (seg.flatMap (elementText ctype g)) := by
  obtain ⟨e, rest, rfl, htype⟩ := h.right.resolve_left hes₂
  obtain ⟨init, t, hends⟩ := haligned (es₁ ++ seg) e rest (by rw [h.split, List.append_assoc]) htype
  rcases List.eq_nil_or_concat' seg with rfl | ⟨first, last, rfl⟩
  · exact .inl rfl
  · rw [← List.append_assoc] at hends
    have hlast : last = text (t ++ CRLF) := (List.cons.inj (List.append_inj' hends rfl).2).1
    have htext : elementText ctype g (text (t ++ CRLF)) = t ++ CRLF := rfl
    rw [List.flatMap_append, List.flatMap_singleton, hlast, htext, ← List.append_assoc]
    exact closed_CRLF _

theorem NoStrayBoundary.not_recognised (h : NoStrayBoundary b) {n : Nat} (hn : FirstFree b.content n)
    {es₁ seg es₂ : List Element} (hsegment : Segment b.content es₁ seg es₂)
    (hline : LineAt 10 (seg.flatMap (elementText b.contentType (guess n))) before line) :
    ¬Recognised (guess n).boundary line := by
  by_cases hguarded : Guarded (seg.map (elementText b.contentType (guess n))) before (guess n).boundary.length
  · refine hguarded.not_recognised (fun e he => hn.free e ?_) hline
    rw [hsegment.split]
    exact List.mem_append_right _ (List.mem_append_left _ he)
  · exact h n hn es₁ seg es₂ hsegment before line hline hguarded

theorem NoStrayBoundary.recognised (h : NoStrayBoundary b) (haligned : Aligned b.content) {n : Nat}
    (hn : FirstFree b.content n) (es es₁ : List Element) (hsplit : b.content = es₁ ++ es)
    (hleft : es₁ = [] ∨ EndsAtBoundary es₁)
    (hline : LineAt 10 ((fillIn b.contentType (guess n).boundary es).flatMap Element.text) before line)
    (hrecognised : Recognised (guess n).boundary line) :
    ∃ fs₁ e fs₂, fillIn b.contentType (guess n).boundary es = fs₁ ++ e :: fs₂ ∧ e.type = .boundaryElement ∧
      before = fs₁.flatMap Element.text := by
  induction hlength : es.length using Nat.strong_induction_on generalizing es es₁ before with
  | _ length ih =>
    rcases Split.cases (fun e : Element => decide (e.type = .boundaryElement)) es with
      hnone | ⟨seg, e, rest, rfl, htype, hseg⟩
    · -- there are no more boundaries
      have hinner : ∀ e ∈ es, e.type ≠ .boundaryElement := fun e he => of_decide_eq_false (hnone e he)
      have hfill := fillIn_segment b.contentType (guess n) hinner []
      rw [List.append_nil, fillIn, List.append_nil] at hfill
      rw [hfill, flatMap_segment] at hline
      have hsegment : Segment b.content es₁ es [] := ⟨by rw [List.append_nil]; exact hsplit, hinner, hleft, .inl rfl⟩
      exact absurd hrecognised (h.not_recognised hn hsegment hline)
    · have hinner : ∀ e ∈ seg, e.type ≠ .boundaryElement := fun e he => of_decide_eq_false (hseg e he)
      have htype : e.type = .boundaryElement := of_decide_eq_true htype
      have hsegment : Segment b.content es₁ seg (e :: rest) := ⟨hsplit, hinner, hleft, .inr ⟨e, rest, rfl, htype⟩⟩
      obtain ⟨t, hfilled⟩ : ∃ t, fillIn b.contentType (guess n).boundary (e :: rest) =
          ⟨t, e.type⟩ :: fillIn b.contentType (guess n).boundary rest := ⟨_, rfl⟩
      have hfill := fillIn_segment b.contentType (guess n) hinner (e :: rest)
      have hmem : Element.mk t e.type ∈ fillIn b.contentType (guess n).boundary (e :: rest) := by
        rw [hfilled]
        exact List.mem_cons_self
      obtain ⟨dashes, htext, hdashes⟩ := text_of_boundary hmem htype
      dsimp only at htext
      have hne := hrecognised.ne_nil
      rw [hfill, hfilled, List.flatMap_append, flatMap_segment, List.flatMap_cons] at hline
      rw [hfill, hfilled]
      rcases hline.of_append (hsegment.closed haligned (List.cons_ne_nil _ _) _ _) hne with hinside | ⟨later, rfl, hlater⟩
      · exact absurd hrecognised (h.not_recognised hn hsegment hinside)
      have hclosed : Closed 10 t := by
        rw [htext]
        exact closed_CRLF _
      rcases hlater.of_append hclosed hne with hhere | ⟨next, rfl, hnext⟩
      · -- it is the boundary itself
        have hbefore : later = [] := lineAt_boundary hdashes (htext ▸ hhere) hne
        refine ⟨_, ⟨t, e.type⟩, _, rfl, htype, ?_⟩
        rw [hbefore, List.append_nil, flatMap_segment]
      · have hless : rest.length < length := by
          rw [← hlength, List.length_append, List.length_cons]
          omega
        have hends : EndsAtBoundary (es₁ ++ seg ++ [e]) := by
          rw [EndsAtBoundary, List.getLast?_concat]
          exact congrArg some htype
        obtain ⟨fs₁, f, fs₂, hfs, hf, rfl⟩ := ih rest.length hless rest (es₁ ++ seg ++ [e])
          (by rw [hsplit]; simp) (.inr hends) hnext rfl
        refine ⟨seg.map (filled b.contentType (guess n)) ++ ⟨t, e.type⟩ :: fs₁, f, fs₂, ?_, hf, ?_⟩
        · rw [hfs, List.append_assoc, List.cons_append]
        · rw [List.flatMap_append, flatMap_segment, List.flatMap_cons]

theorem Unambiguous.not_recognised {n : Nat}
    (h : Unambiguous { b with content := fillIn b.contentType (guess n).boundary b.content } (guess n).boundary)
    (haligned : Aligned b.content) {es₁ seg es₂ : List Element} (hsegment : Segment b.content es₁ seg es₂)
    (hline : LineAt 10 (seg.flatMap (elementText b.contentType (guess n))) before line) :
    ¬Recognised (guess n).boundary line := by
  intro hrecognised
  have hne := hrecognised.ne_nil
  obtain ⟨fs, hfs, hclosed⟩ := fillIn_closed b.contentType (guess n).boundary hsegment.left (seg ++ es₂)
  have hfill := fillIn_segment b.contentType (guess n) hsegment.inner es₂
  have hcontent : fillIn b.contentType (guess n).boundary b.content =
      fs ++ (seg.map (filled b.contentType (guess n)) ++ fillIn b.contentType (guess n).boundary es₂) := by
    rw [hsegment.split, hfs, hfill]
  have hright : Closed 10 (seg.flatMap (elementText b.contentType (guess n))) ∨
      (fillIn b.contentType (guess n).boundary es₂).flatMap Element.text = [] := by
    by_cases hes₂ : es₂ = []
    · rw [hes₂]
      exact .inr rfl
    · exact .inl (hsegment.closed haligned hes₂ _ _)
  have hwhole := (hline.append_right hright hne).append_left hclosed
  rw [← flatMap_segment, ← List.flatMap_append, ← List.flatMap_append, ← hcontent] at hwhole
  obtain ⟨gs₁, e, gs₂, hsplit, htype, hbefore⟩ := h _ _ hwhole hrecognised
  dsimp only at hsplit
  have hlength : (fs.flatMap Element.text).length + before.length = (gs₁.flatMap Element.text).length := by
    rw [← hbefore, List.length_append]
  have hinner : e ∉ seg.map (filled b.contentType (guess n)) := by
    intro hmem
    obtain ⟨d, hd, rfl⟩ := List.mem_map.1 hmem
    exact hsegment.inner d hd htype
  rcases Split.outside (hcontent.symm.trans hsplit) hinner with ⟨later, rfl⟩ | ⟨later, rfl⟩
  · have hmem : e ∈ fillIn b.contentType (guess n).boundary b.content := by
      rw [hsplit]
      exact List.mem_append_right _ List.mem_cons_self
    obtain ⟨dashes, htext, -⟩ := text_of_boundary hmem htype
    have hpositive : 0 < e.text.length := by
      rw [htext]
      exact Nat.zero_lt_succ _
    rw [List.flatMap_append, List.flatMap_cons, List.length_append, List.length_append] at hlength
    omega
  · obtain ⟨rest, htext, -⟩ := hline
    have hpositive := List.length_pos_of_ne_nil hne
    rw [List.flatMap_append, List.flatMap_append, flatMap_segment, htext] at hlength
    simp only [List.length_append] at hlength
    omega

/-- **When boundaries are unambiguous.** -/
theorem unambiguous_iff (ctype : Bytes) (calls : List FormCall) :
    Unambiguous (runForm ctype calls).finish.1 ([45, 45] ++ (runForm ctype calls).finish.2) ↔
      NoStrayBoundary (runForm ctype calls) := by
  have haligned := (lineEnded_runForm ctype calls).aligned
  obtain ⟨n, hguess, hn⟩ := firstFree_findBoundary (runForm ctype calls).content
  have hfinish : (runForm ctype calls).finish =
      ({ runForm ctype calls with
        content := fillIn (runForm ctype calls).contentType (guess n).boundary (runForm ctype calls).content },
        (guess n).digits) := by
    rw [MimeBuilder.finish, hguess]
    rfl
  rw [hfinish]
  constructor
  · intro h m hm es₁ seg es₂ hsegment before line hline _
    rw [hm.unique hn] at hline ⊢
    exact h.not_recognised haligned hsegment hline
  · intro h before line hline hrecognised
    exact h.recognised haligned hn _ [] rfl (.inl rfl) hline hrecognised

/-- Raw data that comes in two pieces. -/
theorem not_unambiguous_rawData :
    let b := runForm [] [.content (.addRawData (lit "--")), .content (.addRawData (lit "000\n"))]
    ¬Unambiguous b.finish.1 ([45, 45] ++ b.finish.2) := by
  intro b h
  have hguess : findBoundary b.content .first = .first := by
    rw [findBoundary, if_neg (by decide +kernel)]
  rw [MimeBuilder.finish, hguess] at h
  have hline : LineAt 10 (lit "\r\n--000\n") (lit "\r\n") (lit "--000") :=
    ⟨[10], by decide, .inr (by decide), by decide, .inr rfl⟩
  have hrecognised : Recognised (lit "--000") (lit "--000") := by
    rw [Recognised]
    decide +kernel
  obtain ⟨es₁, e, es₂, hsplit, htype, -⟩ := h (lit "\r\n") (lit "--000") hline hrecognised
  have hcontent : [text CRLF, text (lit "--"), text (lit "000\n")] = es₁ ++ e :: es₂ := hsplit
  have hall : ∀ e ∈ [text CRLF, text (lit "--"), text (lit "000\n")], e.type = .textElement := by decide
  rw [hcontent] at hall
  rw [hall e (List.mem_append_right _ List.mem_cons_self)] at htype
  cases htype

end Afl.Net
