import Mathlib.Logic.Function.Iterate

/-!
# Decoding with a ring window

A decoder of the LZSS family keeps the last symbols it wrote in a ring, a window whose places follow each other by
`next`. A literal is written as it is; a match is copied from the ring symbol by symbol, so it may read what it has just
written. Which of the two comes next is said by control bits, given as a list here.
-/

namespace Lzss

variable {ι α : Type} [DecidableEq ι]

/-- The window, and the place where the next symbol goes. -/
structure Ring (ι α : Type) where
  window : ι → α
  pos : ι

variable (next : ι → ι)

/-- Write a symbol. -/
def Ring.push (r : Ring ι α) (a : α) : Ring ι α := ⟨Function.update r.window r.pos a, next r.pos⟩

/-- Copy a number of symbols from a place in the window. -/
def Ring.copy : Nat → ι → Ring ι α → List α × Ring ι α
  | 0, _, r => ([], r)
  | count + 1, place, r =>
    let (out, r') := copy count (next place) (r.push next (r.window place))
    (r.window place :: out, r')

/-- How control symbols are expanded into bits (`true` is a literal), and two symbols into a match. -/
structure Format (ι α : Type) where
  bits : α → List Bool
  place : α → α → ι
  count : α → Nat

/-- The symbols that an input decodes to, with these bits left of the last control symbol. A match that the end of
the input cuts in two is ignored. -/
def decode (f : Format ι α) (r : Ring ι α) : List Bool → List α → List α
  | _, [] => []
  | [], a :: input => decode f r (f.bits a) input
  | true :: bits, a :: input => a :: decode f (r.push next a) bits input
  | false :: _, [_] => []
  | false :: bits, low :: high :: input =>
    let (out, r') := r.copy next (f.count high) (f.place low high)
    out ++ decode f r' bits input

namespace Ring

theorem length_copy (r : Ring ι α) (count : Nat) (place : ι) : (r.copy next count place).1.length = count := by
  induction count generalizing r place with
  | zero => rfl
  | succ count ih => rw [copy, List.length_cons, ih]

theorem copy_add (r : Ring ι α) (a b : Nat) (place : ι) :
    r.copy next (a + b) place =
      ((r.copy next a place).1 ++ ((r.copy next a place).2.copy next b (next^[a] place)).1,
        ((r.copy next a place).2.copy next b (next^[a] place)).2) := by
  induction a generalizing r place with
  | zero =>
    rw [Nat.zero_add]
    rfl
  | succ a ih => rw [Nat.succ_add, copy, ih, copy, List.cons_append, Function.iterate_succ_apply]

end Ring

end Lzss
