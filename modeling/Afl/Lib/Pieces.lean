import Mathlib.Data.List.Basic

/-!
# Buffers in pieces

A reader takes a buffer and returns its new state and what it has not consumed. It is resumable if it does not matter
where a buffer is cut: what it leaves of the first piece and of the second one is what it leaves of both.
-/

namespace Pieces

variable {σ α : Type} {h : σ → List α → σ × List α} {I : σ → Prop}

/-- Pass some pieces to a reader, one after the other; the result is its state and everything it has not consumed. -/
def feed (h : σ → List α → σ × List α) : σ → List (List α) → σ × List α
  | s, [] => (s, [])
  | s, piece :: pieces =>
    let first := h s piece
    let later := feed h first.1 pieces
    (later.1, first.2 ++ later.2)

structure Resumable (h : σ → List α → σ × List α) (I : σ → Prop) : Prop where
  nil : ∀ {s}, I s → h s [] = (s, [])
  keeps : ∀ {s}, I s → ∀ l, I (h s l).1
  append : ∀ {s}, I s → ∀ l m, h s (l ++ m) = ((h (h s l).1 m).1, (h s l).2 ++ (h (h s l).1 m).2)

/-- **Where the pieces end does not matter.** -/
theorem Resumable.feed_eq (hh : Resumable h I) {s : σ} (hs : I s) (pieces : List (List α)) :
    feed h s pieces = h s pieces.flatten := by
  induction pieces generalizing s with
  | nil => exact (hh.nil hs).symm
  | cons piece pieces ih =>
    rw [feed, ih (hh.keeps hs piece), List.flatten_cons, hh.append hs]

/-- What a reader does with one symbol: it consumes it, or it leaves it and is finished. -/
inductive Symbol (h : σ → List α → σ × List α) (finished : σ → Prop) (s : σ) (a : α) (s' : σ) : Prop
  | eaten (hnext : ∀ l, h s (a :: l) = h s' l)
  | refused (hlast : finished s') (hnext : ∀ l, h s (a :: l) = (s', a :: l))

/-- **Symbol by symbol.** A reader that consumes one symbol after the other until it is finished is resumable. -/
theorem Resumable.of_symbols {F : σ → Prop} (hnil : ∀ {s}, I s → h s [] = (s, []))
    (hfinished : ∀ {s}, I s → F s → ∀ l, h s l = (s, l))
    (hsymbol : ∀ {s}, I s → ¬F s → ∀ a, ∃ s', I s' ∧ Symbol h F s a s') : Resumable h I where
  nil := hnil
  keeps := by
    intro s hs l
    induction l generalizing s with
    | nil => rw [hnil hs]; exact hs
    | cons a l ih =>
      by_cases hf : F s
      · rw [hfinished hs hf]; exact hs
      · obtain ⟨s', hs', hnext | ⟨-, hnext⟩⟩ := hsymbol hs hf a
        · rw [hnext]; exact ih hs'
        · rw [hnext]; exact hs'
  append := by
    intro s hs l m
    induction l generalizing s with
    | nil => rw [hnil hs, List.nil_append, List.nil_append]
    | cons a l ih =>
      by_cases hf : F s
      · rw [hfinished hs hf, hfinished hs hf, hfinished hs hf]
      · obtain ⟨s', hs', hnext | ⟨hlast, hnext⟩⟩ := hsymbol hs hf a
        · rw [List.cons_append, hnext, hnext, ih hs']
        · rw [List.cons_append, hnext, hnext, hfinished hs' hlast, List.cons_append]

end Pieces
