import Mathlib.Data.List.Infix

/-!
# Stuffing

Every line of a text that begins with an escape character is sent with one more of them, and the receiver takes one away
from each such line. The receiver works on the lines of the text; a sender that only looks at the beginnings of the pieces it
is given does the same exactly if pieces and lines fit together.
-/

namespace Stuffing

/-- A line ends in two characters. -/
structure Marks (α : Type) where
  escape : α
  cr : α
  lf : α
  escape_ne_cr : escape ≠ cr
  escape_ne_lf : escape ≠ lf
  cr_ne_lf : cr ≠ lf

/-- What has come before a character: the beginning of the line, the first half of its end, or anything else. -/
inductive LineState
  | start
  | cr
  | mid
deriving DecidableEq

namespace Marks

variable {α : Type} [DecidableEq α] (m : Marks α)

/-! ### Lines -/

/-- The lines of a text, without their ends. -/
def lines : List α → List (List α)
  | [] => [[]]
  | [c] => [[c]]
  | c :: d :: s => if c = m.cr ∧ d = m.lf then [] :: lines s else (lines (d :: s)).modifyHead (c :: ·)

/-- The text that has these lines. -/
def join (ls : List (List α)) : List α := [m.cr, m.lf].intercalate ls

/-- `k` escapes are put in place of the one at the beginning of a line. -/
def markLine (k : Nat) (l : List α) : List α :=
  if l.head? = some m.escape then List.replicate k m.escape ++ l.tail else l

/-- The text as it is sent. -/
def stuff (s : List α) : List α := m.join ((m.lines s).map (m.markLine 2))

/-- What a receiver makes of a text. -/
def unstuff (s : List α) : List α := m.join ((m.lines s).map (m.markLine 0))

/-- What is sent for a piece. -/
def stuffPiece (p : List α) : List α := if p.head? = some m.escape then m.escape :: p else p

/-! ### One character after another -/

def next (st : LineState) (c : α) : LineState :=
  if c = m.cr then .cr else if c = m.lf ∧ st = .cr then .start else .mid

/-- The state after a text. -/
def after (st : LineState) (s : List α) : LineState := s.foldl m.next st

/-- `markLine` for all lines of a text. -/
def mark (k : Nat) : LineState → List α → List α
  | _, [] => []
  | st, c :: s => (if st = .start ∧ c = m.escape then List.replicate k c else [c]) ++ mark k (m.next st c) s

/-- In none of the pieces but at its beginning, an escape begins a line, and all at the beginnings of pieces do. -/
def Fits (st : LineState) (ps : List (List α)) : Prop :=
  ∀ ps₁ p ps₂ u v, ps = ps₁ ++ p :: ps₂ → p = u ++ m.escape :: v → (u = [] ↔ m.after st (ps₁.flatten ++ u) = .start)

/-- A line does not end in the middle of a piece. -/
def Whole (p : List α) : Prop := m.lf ∈ p → p.getLast? = some m.lf

variable {m}

variable {st : LineState}

variable {c : α}

theorem next_eq_start : m.next st c = .start ↔ c = m.lf ∧ st = .cr := by
  rw [next]
  split_ifs with hcr hlf
  · refine iff_of_false not_false fun h => m.cr_ne_lf ?_
    rw [← hcr, h.1]
  · exact iff_of_true rfl hlf
  · exact iff_of_false not_false hlf

theorem next_escape (st : LineState) : m.next st m.escape = .mid := by
  rw [next, if_neg m.escape_ne_cr, if_neg fun h => m.escape_ne_lf h.1]

theorem after_append (st : LineState) (s t : List α) : m.after st (s ++ t) = m.after (m.after st s) t := List.foldl_append

theorem after_cons (st : LineState) (c : α) (s : List α) : m.after st (c :: s) = m.after (m.next st c) s := rfl

variable {s : List α}

theorem after_eq_start : m.after .start s = .start ↔ s = [] ∨ [m.cr, m.lf] <:+ s := by
  rcases List.eq_nil_or_concat' s with rfl | ⟨init, c, rfl⟩
  · exact iff_of_true rfl (.inl rfl)
  · rw [after_append, after_cons, after, List.foldl_nil, next_eq_start]
    rcases List.eq_nil_or_concat' init with rfl | ⟨init, d, rfl⟩
    · refine iff_of_false (fun h => LineState.noConfusion h.2) ?_
      rintro (h | h)
      · exact List.cons_ne_nil _ _ h
      · exact absurd h.length_le (by simp)
    · have hsuffix : [m.cr, m.lf] <:+ init ++ [d] ++ [c] ↔ c = m.lf ∧ d = m.cr := by
        constructor
        · rintro ⟨rest, hrest⟩
          have heq : rest ++ [m.cr] ++ [m.lf] = init ++ [d] ++ [c] := by rw [← hrest, List.append_assoc]; rfl
          have hlast := List.append_inj' heq rfl
          exact ⟨(List.cons.inj hlast.2).1.symm, (List.cons.inj (List.append_inj' hlast.1 rfl).2).1.symm⟩
        · rintro ⟨rfl, rfl⟩
          exact ⟨init, by rw [List.append_assoc]; rfl⟩
      rw [after_append, after_cons, hsuffix]
      have hnext : ∀ st, m.after (m.next st d) [] = .cr ↔ d = m.cr := by
        intro st
        rw [after, List.foldl_nil, next]
        split_ifs with hcr hlf
        · exact iff_of_true rfl hcr
        · exact iff_of_false not_false hcr
        · exact iff_of_false not_false hcr
      rw [hnext]
      refine ⟨.inr, ?_⟩
      rintro (h | h)
      · simp at h
      · exact h

/-! ### Lines of a text -/

theorem lines_cons (h : ¬(c = m.cr ∧ s.head? = some m.lf)) :
    m.lines (c :: s) = (m.lines s).modifyHead (c :: ·) := by
  cases s with
  | nil => rfl
  | cons d s =>
    rw [lines, if_neg]
    rintro ⟨hc, rfl⟩
    exact h ⟨hc, rfl⟩

theorem lines_lineEnd (s : List α) : m.lines (m.cr :: m.lf :: s) = [] :: m.lines s := by
  rw [lines, if_pos ⟨rfl, rfl⟩]

theorem line_induction (m : Marks α) {P : List α → Prop} (hnil : P []) (hend : ∀ s, P s → P (m.cr :: m.lf :: s))
    (hchar : ∀ c s, ¬(c = m.cr ∧ s.head? = some m.lf) → P s → P (c :: s)) (s : List α) : P s := by
  fun_induction m.lines s with
  | case1 => exact hnil
  | case2 c => exact hchar c [] (fun h => Option.some_ne_none _ h.2.symm) hnil
  | case3 c d s heq ih =>
    rw [heq.1, heq.2]
    exact hend s ih
  | case4 c d s hne ih =>
    refine hchar c (d :: s) ?_ ih
    rintro ⟨hc, hd⟩
    exact hne ⟨hc, Option.some.inj hd⟩

theorem exists_lines (s : List α) : ∃ l ls, m.lines s = l :: ls := by
  induction s using m.line_induction with
  | hnil => exact ⟨[], [], rfl⟩
  | hend s ih => exact ⟨[], m.lines s, lines_lineEnd s⟩
  | hchar c s h ih =>
    obtain ⟨l, ls, hlines⟩ := ih
    exact ⟨c :: l, ls, by rw [lines_cons h, hlines, List.modifyHead_cons]⟩

omit [DecidableEq α] in
theorem join_cons_cons (l l' : List α) (ls : List (List α)) :
    m.join (l :: l' :: ls) = l ++ m.cr :: m.lf :: m.join (l' :: ls) := by
  rw [join, List.intercalate_cons_cons, List.append_assoc]
  rfl

omit [DecidableEq α] in
theorem join_modifyHead (c : α) (l : List α) (ls : List (List α)) : m.join ((c :: l) :: ls) = c :: m.join (l :: ls) := by
  cases ls with
  | nil => rw [join, join, List.intercalate_singleton, List.intercalate_singleton]
  | cons l' ls => rw [join_cons_cons, join_cons_cons, List.cons_append]

theorem join_lines (s : List α) : m.join (m.lines s) = s := by
  induction s using m.line_induction with
  | hnil => rfl
  | hend s ih =>
    obtain ⟨l, ls, hlines⟩ := m.exists_lines s
    rw [lines_lineEnd, hlines, join_cons_cons, ← hlines, ih, List.nil_append]
  | hchar c s h ih =>
    obtain ⟨l, ls, hlines⟩ := m.exists_lines s
    rw [lines_cons h, hlines, List.modifyHead_cons, join_modifyHead, ← hlines, ih]

theorem lines_escapes (k : Nat) (s : List α) :
    m.lines (List.replicate k m.escape ++ s) = (m.lines s).modifyHead (List.replicate k m.escape ++ ·) := by
  induction k with
  | zero =>
    obtain ⟨l, ls, hlines⟩ := m.exists_lines s
    rw [List.replicate_zero, List.nil_append, hlines]
    rfl
  | succ k ih =>
    rw [List.replicate_succ, List.cons_append, lines_cons fun h => m.escape_ne_cr h.1, ih, List.modifyHead_modifyHead]
    rfl

/-! ### Marking character by character -/

theorem mark_append (k : Nat) (st : LineState) (s t : List α) :
    m.mark k st (s ++ t) = m.mark k st s ++ m.mark k (m.after st s) t := by
  induction s generalizing st with
  | nil => rfl
  | cons c s ih => rw [List.cons_append, mark, mark, ih, List.append_assoc, after_cons]

theorem mark_cons (h : ¬(st = .start ∧ c = m.escape)) (k : Nat) (s : List α) :
    m.mark k st (c :: s) = c :: m.mark k (m.next st c) s := by
  rw [mark, if_neg h]
  rfl

theorem mark_start_escape (k : Nat) (s : List α) :
    m.mark k .start (m.escape :: s) = List.replicate k m.escape ++ m.mark k .mid s := by
  rw [mark, if_pos ⟨rfl, rfl⟩, next_escape]

theorem mark_cr (h : s.head? ≠ some m.lf) (k : Nat) : m.mark k .cr s = m.mark k .mid s := by
  cases s with
  | nil => rfl
  | cons c s =>
    have hc : c ≠ m.lf := fun heq => h (congrArg some heq)
    have hnext : m.next .cr c = m.next .mid c := by
      have hlf : ∀ st, ¬(c = m.lf ∧ st = LineState.cr) := fun st h => hc h.1
      rw [next, next, if_neg (hlf .cr), if_neg (hlf .mid)]
    rw [mark_cons (fun h => LineState.noConfusion h.1), mark_cons (fun h => LineState.noConfusion h.1), hnext]

theorem mark_lineEnd (k : Nat) (st : LineState) (s : List α) :
    m.mark k st (m.cr :: m.lf :: s) = m.cr :: m.lf :: m.mark k .start s := by
  have hcr : m.next st m.cr = .cr := if_pos rfl
  have hlf : m.next .cr m.lf = .start := next_eq_start.2 ⟨rfl, rfl⟩
  rw [mark_cons (fun h => m.escape_ne_cr h.2.symm), hcr, mark_cons (fun h => LineState.noConfusion h.1), hlf]

theorem mark_next (h : ¬(c = m.cr ∧ s.head? = some m.lf)) (hst : st ≠ .cr) (k : Nat) :
    m.mark k (m.next st c) s = m.mark k .mid s := by
  rw [next]
  split_ifs with hcr hlf
  · exact mark_cr (fun hhead => h ⟨hcr, hhead⟩) k
  · exact absurd hlf.2 hst
  · rfl

theorem head?_mark (hst : st ≠ .start) (k : Nat) (s : List α) : (m.mark k st s).head? = s.head? := by
  cases s with
  | nil => rfl
  | cons c s => rw [mark_cons fun h => hst h.1]; rfl

theorem markLine_escape (k : Nat) (l : List α) : m.markLine k (m.escape :: l) = List.replicate k m.escape ++ l := if_pos rfl

theorem markLine_of_ne {l : List α} (h : l.head? ≠ some m.escape) (k : Nat) : m.markLine k l = l := if_neg h

theorem lines_mark (k : Nat) {s l : List α} {ls : List (List α)} (h : m.lines s = l :: ls) :
    m.lines (m.mark k .mid s) = l :: ls.map (m.markLine k) ∧
      m.lines (m.mark k .start s) = (l :: ls).map (m.markLine k) := by
  induction s using m.line_induction generalizing l ls with
  | hnil =>
    obtain ⟨rfl, rfl⟩ := List.cons.inj h
    exact ⟨rfl, rfl⟩
  | hend s ih =>
    rw [lines_lineEnd] at h
    obtain ⟨rfl, rfl⟩ := List.cons.inj h
    obtain ⟨l, ls, hlines⟩ := m.exists_lines s
    have hrest := (ih hlines).2
    rw [mark_lineEnd, mark_lineEnd, lines_lineEnd, hrest, hlines]
    exact ⟨rfl, rfl⟩
  | hchar c s hc ih =>
    obtain ⟨l', ls', hlines⟩ := m.exists_lines s
    rw [lines_cons hc, hlines, List.modifyHead_cons] at h
    obtain ⟨rfl, rfl⟩ := List.cons.inj h
    have hmid := (ih hlines).1
    have hhead : ¬(c = m.cr ∧ (m.mark k .mid s).head? = some m.lf) := by
      rw [head?_mark LineState.noConfusion]
      exact hc
    have hline : m.lines (c :: m.mark k .mid s) = (c :: l') :: ls'.map (m.markLine k) := by
      rw [lines_cons hhead, hmid, List.modifyHead_cons]
    constructor
    · rw [mark_cons (fun h => LineState.noConfusion h.1), mark_next hc LineState.noConfusion]
      exact hline
    · by_cases hesc : c = m.escape
      · subst hesc
        rw [mark_start_escape, lines_escapes, hmid, List.map_cons, markLine_escape, List.modifyHead_cons]
      · have hhead : (c :: l').head? ≠ some m.escape := fun h => hesc (Option.some.inj h)
        rw [mark_cons (fun h => hesc h.2), mark_next hc LineState.noConfusion, hline, List.map_cons, markLine_of_ne hhead]

theorem join_markLine (k : Nat) (s : List α) : m.join ((m.lines s).map (m.markLine k)) = m.mark k .start s := by
  obtain ⟨l, ls, hlines⟩ := m.exists_lines s
  rw [hlines, ← (lines_mark k hlines).2, join_lines]

theorem mark_zero_mark_two (st : LineState) (s : List α) : m.mark 0 st (m.mark 2 st s) = s := by
  induction s generalizing st with
  | nil => rfl
  | cons c s ih =>
    by_cases hesc : st = .start ∧ c = m.escape
    · obtain ⟨rfl, rfl⟩ := hesc
      have hmid := ih .mid
      rw [mark_start_escape, List.replicate_succ, List.cons_append, mark_start_escape, List.replicate_zero, List.nil_append,
        List.replicate_one, List.singleton_append, mark_cons (fun h => LineState.noConfusion h.1), next_escape, hmid]
    · rw [mark_cons hesc, mark_cons hesc, ih]

theorem unstuff_stuff (s : List α) : m.unstuff (m.stuff s) = s := by
  rw [unstuff, join_markLine, stuff, join_markLine, mark_zero_mark_two]

theorem markLine_two_ne (l : List α) : m.markLine 2 l ≠ [m.escape] := by
  intro h
  rw [markLine] at h
  split_ifs at h with hhead
  · exact absurd (congrArg List.length h) (by simp)
  · rw [h] at hhead
    exact hhead rfl

theorem ne_escape_of_mem_lines_stuff {s l : List α} (h : l ∈ m.lines (m.stuff s)) : l ≠ [m.escape] := by
  obtain ⟨l', ls, hlines⟩ := m.exists_lines s
  rw [stuff, join_markLine, (lines_mark 2 hlines).2] at h
  obtain ⟨l'', -, rfl⟩ := List.mem_map.1 h
  exact markLine_two_ne l''

/-! ### Texts without an escape at the beginning of a line -/

theorem mark_eq_self (h : ∀ u v, s = u ++ m.escape :: v → m.after st u ≠ .start) (k : Nat) :
    m.mark k st s = s := by
  induction s generalizing st with
  | nil => rfl
  | cons c s ih =>
    have hc : ¬(st = .start ∧ c = m.escape) := by
      rintro ⟨hst, rfl⟩
      exact h [] s rfl hst
    rw [mark_cons hc, ih]
    intro u v heq
    exact h (c :: u) v (by rw [heq]; rfl)

theorem mark_of_not_mem (hst : st ≠ .start) (h : m.lf ∉ s) (k : Nat) : m.mark k st s = s := by
  induction s generalizing st with
  | nil => rfl
  | cons c s ih =>
    rw [List.mem_cons, not_or] at h
    have hnext : m.next st c ≠ .start := fun heq => h.1 (next_eq_start.1 heq).1.symm
    rw [mark_cons (fun h => hst h.1), ih hnext h.2]

theorem mark_zero_sublist (st : LineState) (s : List α) : (m.mark 0 st s).Sublist s := by
  induction s generalizing st with
  | nil => exact List.Sublist.refl _
  | cons c s ih =>
    rw [mark]
    split_ifs
    · exact (ih _).cons c
    · exact (ih _).cons_cons c

theorem countP_mark_zero (st : LineState) (s : List α) :
    (m.mark 0 st s).countP (· ≠ m.escape) = s.countP (· ≠ m.escape) := by
  induction s generalizing st with
  | nil => rfl
  | cons c s ih =>
    rw [mark, List.countP_append, ih, List.countP_cons]
    split_ifs with hesc hne hne
    · simp [hesc.2] at hne
    · simp
    · simp at hne
      simp [hne, Nat.add_comm]
    · simp at hne
      simp [hne]

theorem after_ne_start_of_mark_zero {s u v : List α} (h : m.mark 0 st s = s) (hs : s = u ++ m.escape :: v) :
    m.after st u ≠ .start := by
  intro hstart
  have hu := (m.mark_zero_sublist st u).length_le
  have hv := (m.mark_zero_sublist .mid v).length_le
  have hlength := congrArg List.length h
  rw [hs, mark_append, hstart, mark_start_escape] at hlength
  simp only [List.length_append, List.length_cons, List.replicate_zero, List.nil_append] at hlength
  omega

theorem mark_zero_of_append {s t t' : List α} (hlast : s.getLast? = some c) (hc : c ≠ m.escape)
    (h : m.mark 0 st s ++ t' = s ++ t) : m.mark 0 st s = s := by
  rcases List.append_eq_append_iff.1 h with ⟨w, hs, -⟩ | ⟨w, hs, -⟩
  · rcases List.eq_nil_or_concat' w with rfl | ⟨w, d, rfl⟩
    · rw [List.append_nil] at hs
      exact hs.symm
    · -- a character that is not an escape would be missing
      have hcount := m.countP_mark_zero st s
      rw [hs, ← List.append_assoc, List.getLast?_concat, Option.some.injEq] at hlast
      subst hlast
      have hpos : ([d] : List α).countP (· ≠ m.escape) = 1 := by simp [hc]
      have hsum := congrArg (List.countP (· ≠ m.escape)) hs
      rw [List.countP_append, List.countP_append, hpos] at hsum
      omega
  · exact (m.mark_zero_sublist st s).eq_of_length_le (by rw [hs, List.length_append]; omega)

/-! ### Pieces -/

theorem fits_nil (st : LineState) : m.Fits st [] := by
  intro ps₁ p ps₂ u v h
  exact absurd h.symm (by simp)

variable {ps : List (List α)}

theorem fits_cons {p : List α} :
    m.Fits st (p :: ps) ↔
      (∀ u v, p = u ++ m.escape :: v → (u = [] ↔ m.after st u = .start)) ∧ m.Fits (m.after st p) ps := by
  constructor
  · intro h
    refine ⟨fun u v hp => h [] p ps u v rfl hp, fun ps₁ q ps₂ u v hps hq => ?_⟩
    have hrest := h (p :: ps₁) q ps₂ u v (by rw [hps]; rfl) hq
    rwa [List.flatten_cons, List.append_assoc, after_append] at hrest
  · rintro ⟨hp, hps⟩ ps₁ q ps₂ u v heq hq
    rcases ps₁ with _ | ⟨p', ps₁⟩
    · obtain ⟨rfl, rfl⟩ := List.cons.inj heq
      exact hp u v hq
    · obtain ⟨rfl, rfl⟩ := List.cons.inj heq
      rw [List.flatten_cons, List.append_assoc, after_append]
      exact hps ps₁ q ps₂ u v rfl hq

theorem stuffPiece_escape (s : List α) : m.stuffPiece (m.escape :: s) = m.escape :: m.escape :: s := if_pos rfl

theorem stuffPiece_of_ne (h : c ≠ m.escape) (s : List α) : m.stuffPiece (c :: s) = c :: s :=
  if_neg fun heq => h (Option.some.inj heq)

theorem stuffPiece_eq_mark {p : List α}
    (h : ∀ u v, p = u ++ m.escape :: v → (u = [] ↔ m.after st u = .start)) : m.stuffPiece p = m.mark 2 st p := by
  rcases p with _ | ⟨c, s⟩
  · rfl
  · have hs : m.mark 2 (m.next st c) s = s := by
      refine mark_eq_self (fun u v heq hstart => ?_) 2
      have hnil := (h (c :: u) v (by rw [heq]; rfl)).2 hstart
      exact List.cons_ne_nil _ _ hnil
    by_cases hc : c = m.escape
    · subst hc
      have hst : st = .start := (h [] s rfl).1 rfl
      rw [next_escape] at hs
      rw [stuffPiece_escape, hst, mark_start_escape, hs]
      rfl
    · rw [stuffPiece_of_ne hc, mark_cons (fun h => hc h.2), hs]

theorem flatMap_stuffPiece (h : m.Fits st ps) :
    ps.flatMap m.stuffPiece = m.mark 2 st ps.flatten := by
  induction ps generalizing st with
  | nil => rfl
  | cons p ps ih =>
    obtain ⟨hp, hps⟩ := fits_cons.1 h
    rw [List.flatMap_cons, List.flatten_cons, mark_append, ← ih hps, stuffPiece_eq_mark hp]

/-- The number of escapes that a text begins with. -/
def lead (m : Marks α) (s : List α) : Nat := (s.takeWhile (· = m.escape)).length

theorem lead_escape (s : List α) : m.lead (m.escape :: s) = m.lead s + 1 := by simp [lead]

theorem lead_of_ne (h : c ≠ m.escape) (s : List α) : m.lead (c :: s) = 0 := by simp [lead, h]

theorem lead_le_append {t t' : List α} (h : ∀ st ≠ LineState.start, m.lead t ≤ m.lead (m.mark 0 st t')) (s : List α) :
    ∀ st ≠ LineState.start, m.lead (s ++ t) ≤ m.lead (m.mark 0 st (s ++ t')) := by
  induction s with
  | nil => exact h
  | cons c s ih =>
    intro st hst
    rw [List.cons_append, List.cons_append, mark_cons fun h => hst h.1]
    by_cases hc : c = m.escape
    · rw [hc, lead_escape, lead_escape, next_escape]
      have hrest := ih .mid LineState.noConfusion
      omega
    · rw [lead_of_ne hc]
      apply Nat.zero_le

theorem lead_le (ps : List (List α)) :
    ∀ st ≠ LineState.start, m.lead ps.flatten ≤ m.lead (m.mark 0 st (ps.flatMap m.stuffPiece)) := by
  induction ps with
  | nil =>
    intro st hst
    apply Nat.zero_le
  | cons p ps ih =>
    intro st hst
    rw [List.flatten_cons, List.flatMap_cons]
    rcases p with _ | ⟨c, s⟩
    · exact ih st hst
    · by_cases hc : c = m.escape
      · subst hc
        have hrest := lead_le_append ih s .mid LineState.noConfusion
        rw [stuffPiece_escape, List.cons_append, List.cons_append, List.cons_append, mark_cons fun h => hst h.1, next_escape,
          mark_cons fun h => LineState.noConfusion h.1, next_escape, lead_escape, lead_escape, lead_escape]
        omega
      · rw [stuffPiece_of_ne hc]
        exact lead_le_append ih (c :: s) st hst

theorem start_of_unstuff
    (h : m.mark 0 st (m.stuffPiece (m.escape :: s) ++ ps.flatMap m.stuffPiece) = m.escape :: (s ++ ps.flatten)) :
    st = .start := by
  by_contra hst
  have hrest := lead_le_append (m.lead_le ps) s .mid LineState.noConfusion
  have hlead := congrArg m.lead h
  rw [stuffPiece_escape, List.cons_append, List.cons_append, mark_cons fun h => hst h.1, next_escape,
    mark_cons fun h => LineState.noConfusion h.1, next_escape, lead_escape, lead_escape, lead_escape] at hlead
  omega

theorem mark_stuffPiece (h : c = m.escape → st = .start) (s t : List α) :
    m.mark 0 st (m.stuffPiece (c :: s) ++ t) = c :: m.mark 0 (m.next st c) (s ++ t) := by
  by_cases hc : c = m.escape
  · have hst := h hc
    rw [hc, stuffPiece_escape, hst, List.cons_append, mark_start_escape, List.cons_append,
      mark_cons fun h => LineState.noConfusion h.1, next_escape, next_escape]
    rfl
  · rw [stuffPiece_of_ne hc, List.cons_append, mark_cons fun h => hc h.2]

theorem Whole.mark_rest {s t t' : List α} (hwhole : m.Whole (c :: s))
    (h : m.mark 0 (m.next st c) s ++ t' = s ++ t) : m.mark 0 (m.next st c) s = s := by
  by_cases hlf : m.lf ∈ c :: s
  · rcases List.eq_nil_or_concat' s with rfl | ⟨init, d, rfl⟩
    · rfl
    · have hlast := hwhole hlf
      rw [← List.cons_append, List.getLast?_concat, Option.some.injEq] at hlast
      subst hlast
      exact mark_zero_of_append List.getLast?_concat m.escape_ne_lf.symm h
  · rw [List.mem_cons, not_or] at hlf
    exact mark_of_not_mem (fun hstart => hlf.1 (next_eq_start.1 hstart).1.symm) hlf.2 0

theorem fits_of_unstuff (hwhole : ∀ p ∈ ps, m.Whole p)
    (h : m.mark 0 st (ps.flatMap m.stuffPiece) = ps.flatten) : m.Fits st ps := by
  induction ps generalizing st with
  | nil => exact fits_nil st
  | cons p ps ih =>
    rw [List.forall_mem_cons] at hwhole
    rw [List.flatMap_cons, List.flatten_cons] at h
    rcases p with _ | ⟨c, s⟩
    · refine fits_cons.2 ⟨fun u v heq => absurd heq (by simp), ih hwhole.2 h⟩
    · have hstart : c = m.escape → st = .start := by
        rintro rfl
        exact start_of_unstuff h
      rw [mark_stuffPiece hstart, mark_append, List.cons_append] at h
      have htail := (List.cons.inj h).2
      have hs := hwhole.1.mark_rest htail
      rw [hs] at htail
      have hrest := List.append_cancel_left htail
      refine fits_cons.2 ⟨fun u v heq => ?_, ih hwhole.2 hrest⟩
      rcases u with _ | ⟨d, u⟩
      · exact iff_of_true rfl (hstart (List.cons.inj heq).1)
      · obtain ⟨rfl, htail⟩ := List.cons.inj heq
        rw [after_cons]
        exact iff_of_false (List.cons_ne_nil _ _) (after_ne_start_of_mark_zero hs htail)

/-- The pieces of a text are sent so that the receiver gets back the text exactly if they fit. -/
theorem unstuff_stuffPiece_iff (hwhole : ∀ p ∈ ps, m.Whole p) :
    ((∀ l ∈ m.lines (ps.flatMap m.stuffPiece), l ≠ [m.escape]) ∧ m.unstuff (ps.flatMap m.stuffPiece) = ps.flatten) ↔
      m.Fits .start ps := by
  constructor
  · rintro ⟨-, h⟩
    rw [unstuff, join_markLine] at h
    exact fits_of_unstuff hwhole h
  · intro h
    have hstuff : ps.flatMap m.stuffPiece = m.stuff ps.flatten := by rw [flatMap_stuffPiece h, stuff, join_markLine]
    rw [hstuff]
    exact ⟨fun l hl => ne_escape_of_mem_lines_stuff hl, unstuff_stuff _⟩

end Marks

end Stuffing
