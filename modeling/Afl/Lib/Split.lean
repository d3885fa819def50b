import Mathlib.Data.List.Basic

/-!
# Splitting a list

`findIdx?` seen as a decomposition: either nothing matches, or the list is what precedes the first match, the match,
and the rest. Where the lines of a text begin, and what becomes of them when texts are joined.
-/

namespace Split

variable {α : Type} {p : α → Bool}

theorem findIdx?_none {s : List α} (h : ∀ x ∈ s, p x = false) : s.findIdx? p = none :=
  List.findIdx?_eq_none_iff.mpr fun x hx => by simp [h x hx]

theorem findIdx?_append {a b : List α} {c : α} (ha : ∀ x ∈ a, p x = false) (hc : p c = true) :
    (a ++ c :: b).findIdx? p = some a.length := by
  induction a with
  | nil => simp [List.findIdx?_cons, hc]
  | cons x a ih =>
    have hx := ha x List.mem_cons_self
    have hrest := ih fun y hy => ha y (List.mem_cons_of_mem x hy)
    simp [List.findIdx?_cons, hx, hrest]

theorem drop_append (a b : List α) (c : α) : (a ++ c :: b).drop (a.length + 1) = b := by
  simp [List.drop_append]

theorem cases (p : α → Bool) (s : List α) :
    (∀ x ∈ s, p x = false) ∨ ∃ a c b, s = a ++ c :: b ∧ p c = true ∧ ∀ x ∈ a, p x = false := by
  induction s with
  | nil => exact .inl fun x hx => absurd hx List.not_mem_nil
  | cons x s ih =>
    by_cases hx : p x = true
    · exact .inr ⟨[], x, s, rfl, hx, fun y hy => absurd hy List.not_mem_nil⟩
    · have hx : p x = false := by simpa using hx
      rcases ih with h | ⟨a, c, b, rfl, hc, ha⟩
      · exact .inl (List.forall_mem_cons.mpr ⟨hx, h⟩)
      · exact .inr ⟨x :: a, c, b, rfl, hc, List.forall_mem_cons.mpr ⟨hx, ha⟩⟩

theorem outside {a m b first last : List α} {x : α} (h : a ++ (m ++ b) = first ++ x :: last) (hx : x ∉ m) :
    (∃ rest, a = first ++ x :: rest) ∨ ∃ rest, first = a ++ m ++ rest := by
  rcases List.append_eq_append_iff.1 h with ⟨c, rfl, hc⟩ | ⟨c, rfl, hc⟩
  · rcases List.append_eq_append_iff.1 hc with ⟨d, rfl, -⟩ | ⟨d, rfl, hd⟩
    · exact .inr ⟨d, (List.append_assoc ..).symm⟩
    · cases d with
      | nil => exact .inr ⟨[], by simp⟩
      | cons y d =>
        rw [(List.cons.inj hd).1] at hx
        exact absurd (List.mem_append_right _ List.mem_cons_self) hx
  · cases c with
    | nil =>
      rw [List.nil_append] at hc
      cases m with
      | nil => exact .inr ⟨[], by simp⟩
      | cons y m =>
        rw [(List.cons.inj hc).1] at hx
        exact absurd List.mem_cons_self hx
    | cons y c =>
      rw [← (List.cons.inj hc).1]
      exact .inl ⟨c, rfl⟩

end Split

/-! ### Lines -/

namespace Lines

variable {α : Type} {e : α}

/-- The text has only complete lines. -/
def Closed (e : α) (s : List α) : Prop := s = [] ∨ s.getLast? = some e

/-- The text has this line, after these characters; `e` is the end of a line. -/
def LineAt (e : α) (s before line : List α) : Prop :=
  ∃ rest, s = before ++ (line ++ rest) ∧ Closed e before ∧ e ∉ line ∧ (rest = [] ∨ rest.head? = some e)

theorem closed_concat (s : List α) : Closed e (s ++ [e]) := .inr List.getLast?_concat

theorem Closed.append {s t : List α} (hs : Closed e s) (ht : Closed e t) : Closed e (s ++ t) := by
  rcases ht with rfl | ht
  · rwa [List.append_nil]
  · rw [Closed, List.getLast?_append, ht]
    exact .inr rfl

theorem Closed.right {s t : List α} (h : Closed e (s ++ t)) : Closed e t := by
  rcases List.eq_nil_or_concat' t with rfl | ⟨init, c, rfl⟩
  · exact .inl rfl
  · rcases h with h | h
    · exact absurd h (by simp)
    · rw [← List.append_assoc, List.getLast?_concat] at h
      exact .inr (by rw [List.getLast?_concat]; exact h)

theorem Closed.mem {s : List α} (h : Closed e s) (hne : s ≠ []) : e ∈ s :=
  h.elim (fun hnil => absurd hnil hne) List.mem_of_getLast?

theorem LineAt.append_left {a s before line : List α} (ha : Closed e a) (h : LineAt e s before line) :
    LineAt e (a ++ s) (a ++ before) line := by
  obtain ⟨rest, rfl, hbefore, hline, hrest⟩ := h
  exact ⟨rest, (List.append_assoc ..).symm, ha.append hbefore, hline, hrest⟩

theorem LineAt.append_right {s t before line : List α} (hs : Closed e s ∨ t = []) (h : LineAt e s before line)
    (hne : line ≠ []) : LineAt e (s ++ t) before line := by
  obtain ⟨rest, rfl, hbefore, hline, hrest⟩ := h
  refine ⟨rest ++ t, by simp only [List.append_assoc], hbefore, hline, ?_⟩
  rcases hrest with rfl | hrest
  · rcases hs with hs | rfl
    · -- a line that is not complete cannot be at the end
      rw [List.append_nil] at hs
      exact absurd (hs.right.mem hne) hline
    · exact .inl rfl
  · rw [List.head?_append, hrest]
    exact .inr rfl

theorem LineAt.of_append {a s before line : List α} (ha : Closed e a) (h : LineAt e (a ++ s) before line)
    (hne : line ≠ []) : LineAt e a before line ∨ ∃ later, before = a ++ later ∧ LineAt e s later line := by
  obtain ⟨rest, hsplit, hbefore, hline, hrest⟩ := h
  rcases List.append_eq_append_iff.1 hsplit with ⟨c, rfl, hc⟩ | ⟨c, rfl, hc⟩
  · exact .inr ⟨c, rfl, rest, hc, hbefore.right, hline, hrest⟩
  · by_cases hnil : c = []
    · rw [hnil, List.nil_append] at hc
      rw [hnil, List.append_nil]
      exact .inr ⟨[], (List.append_nil _).symm, rest, hc.symm, .inl rfl, hline, hrest⟩
    · have hend : Closed e c := ha.right
      rcases List.append_eq_append_iff.1 hc with ⟨d, rfl, rfl⟩ | ⟨d, rfl, -⟩
      · left
        refine ⟨d, rfl, hbefore, hline, ?_⟩
        by_cases hd : d = []
        · exact .inl hd
        · rw [List.head?_append_of_ne_nil d hd] at hrest
          exact .inr (hrest.resolve_left fun happend => hd (List.append_eq_nil_iff.1 happend).1)
      · exact absurd (List.mem_append_left d (hend.mem hnil)) hline

end Lines
