import Mathlib.Data.List.Basic

/-!
# Sparse arrays

A sparse array remembers what was written at each position, and the end of what was written. A position below the end
that was never written has the value `fill`.
-/

/-- Nothing is written at or after the end. -/
structure SparseArray {α : Type} (fill : α) where
  written : Nat → Option α
  size : Nat
  written_of_le : ∀ i, size ≤ i → written i = none

namespace SparseArray

variable {α : Type} {fill : α}

def empty : SparseArray fill where
  written _ := none
  size := 0
  written_of_le _ _ := rfl

/-- The value at a position. -/
def value (a : SparseArray fill) (i : Nat) : α := (a.written i).getD fill

/-- Up to `n` values from a position on, as far as there are such. -/
def read (a : SparseArray fill) (pos n : Nat) : List α :=
  (List.range (min n (a.size - pos))).map fun i => a.value (pos + i)

/-- A write replaces the values in its range, and the array extends at least to its end. -/
def write (a : SparseArray fill) (pos : Nat) (m : List α) : SparseArray fill where
  written i := if pos ≤ i ∧ i < pos + m.length then m[i - pos]? else a.written i
  size := max a.size (pos + m.length)
  written_of_le i hi := by
    rw [if_neg (by omega)]
    exact a.written_of_le i (by omega)

/-! ### The values in a list -/

/-- All values, in order. -/
def contents (a : SparseArray fill) : List α := (List.range a.size).map a.value

@[simp] theorem length_contents (a : SparseArray fill) : a.contents.length = a.size := by
  rw [contents, List.length_map, List.length_range]

theorem getElem?_contents (a : SparseArray fill) (i : Nat) :
    a.contents[i]? = if i < a.size then some (a.value i) else none := by
  rw [contents, List.getElem?_map]
  split_ifs with hi
  · rw [List.getElem?_range hi, Option.map_some]
  · rw [List.getElem?_eq_none (by rw [List.length_range]; omega), Option.map_none]

theorem read_eq (a : SparseArray fill) (pos n : Nat) : a.read pos n = (a.contents.drop pos).take n := by
  apply List.ext_getElem?
  intro i
  rw [read, List.getElem?_map, List.getElem?_take, List.getElem?_drop, getElem?_contents]
  by_cases hi : i < min n (a.size - pos)
  · rw [List.getElem?_range hi, Option.map_some, if_pos (by omega), if_pos (by omega)]
  · rw [List.getElem?_eq_none (by rw [List.length_range]; omega), Option.map_none]
    split_ifs
    · omega
    · rfl
    · rfl

theorem value_write (a : SparseArray fill) (pos : Nat) (m : List α) (i : Nat) :
    (a.write pos m).value i = if pos ≤ i then (m[i - pos]?).getD (a.value i) else a.value i := by
  unfold value write
  dsimp only
  split_ifs with hrange hpos hpos
  · rw [List.getElem?_eq_getElem (show i - pos < m.length by omega)]
    rfl
  · omega
  · rw [List.getElem?_eq_none (by omega)]
    rfl
  · rfl

theorem value_of_le (a : SparseArray fill) {i : Nat} (h : a.size ≤ i) : a.value i = fill := by
  rw [value, a.written_of_le i h, Option.getD_none]

theorem getElem?_filled (a : SparseArray fill) {pos i : Nat} (h : i < pos) :
    (a.contents ++ List.replicate (pos - a.size) fill)[i]? = some (a.value i) := by
  by_cases hi : i < a.size
  · rw [List.getElem?_append_left (by rw [length_contents]; exact hi), getElem?_contents, if_pos hi]
  · rw [List.getElem?_append_right (by rw [length_contents]; omega), length_contents,
      List.getElem?_replicate_of_lt (by omega), a.value_of_le (by omega)]

theorem contents_write (a : SparseArray fill) (pos : Nat) (m : List α) :
    (a.write pos m).contents =
      (a.contents ++ List.replicate (pos - a.size) fill).take pos ++ m ++ a.contents.drop (pos + m.length) := by
  have hhead : ((a.contents ++ List.replicate (pos - a.size) fill).take pos).length = pos := by
    rw [List.length_take, List.length_append, List.length_replicate, length_contents]
    omega
  have hsize : (a.write pos m).size = max a.size (pos + m.length) := rfl
  apply List.ext_getElem?
  intro i
  rw [getElem?_contents, value_write, hsize]
  by_cases hbefore : i < pos
  · rw [if_pos (by omega), if_neg (by omega), List.append_assoc, List.getElem?_append_left (by omega),
      List.getElem?_take_of_lt hbefore, a.getElem?_filled hbefore]
  · rw [if_pos (Nat.le_of_not_lt hbefore), List.append_assoc, List.getElem?_append_right (by omega), hhead]
    by_cases hwithin : i < pos + m.length
    · rw [if_pos (by omega), List.getElem?_append_left (by omega),
        List.getElem?_eq_getElem (show i - pos < m.length by omega)]
      rfl
    · rw [List.getElem?_eq_none (show m.length ≤ i - pos by omega), List.getElem?_append_right (by omega),
        List.getElem?_drop, getElem?_contents, Option.getD_none, show pos + m.length + (i - pos - m.length) = i by omega]
      exact if_congr (by omega) rfl rfl

end SparseArray
