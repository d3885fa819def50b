import Mathlib.Data.List.Basic

/-!
# Removing elements of an array in place

A loop with two indices: elements that go are replaced by null, the others are swapped to the front, over the nulls.
The front part is then what a filter leaves.
-/

namespace Compact

variable {α : Type}

/-- Exchange two elements. -/
def swap (l : List (Option α)) (a b : Nat) : List (Option α) :=
  (l.set a (l[b]?.getD none)).set b (l[a]?.getD none)

/-- One turn of the loop, with the index of the next element to keep. -/
def turn (goes : α → Bool) (acc : List (Option α) × Nat) (i : Nat) : List (Option α) × Nat :=
  match acc.1[i]? with
  | some (some a) => if goes a then (acc.1.set i none, acc.2) else (swap acc.1 acc.2 i, acc.2 + 1)
  | _ => acc

/-- The loop, and the cut at its end. -/
def compact (goes : α → Bool) (l : List (Option α)) : List (Option α) :=
  let acc := (List.range' 0 l.length).foldl (turn goes) (l, 0)
  acc.1.take acc.2

/-- Whether an element is kept. -/
def keeps (goes : α → Bool) : Option α → Bool
  | none => false
  | some a => !goes a

/-- The array while the loop runs: what was kept, nulls, and what is still to come. -/
def running (kept : List (Option α)) (nulls : Nat) (rest : List (Option α)) : List (Option α) :=
  kept ++ (List.replicate nulls none ++ rest)

theorem getElem?_running (kept : List (Option α)) (nulls : Nat) (e : Option α) (rest : List (Option α)) :
    (running kept nulls (e :: rest))[kept.length + nulls]? = some e := by
  rw [running, List.getElem?_append_right (by omega), List.getElem?_append_right (by simp)]
  simp

theorem set_running (kept : List (Option α)) (nulls : Nat) (e e' : Option α) (rest : List (Option α)) :
    (running kept nulls (e :: rest)).set (kept.length + nulls) e' = running kept nulls (e' :: rest) := by
  rw [running, List.set_append_right _ _ (by omega), List.set_append_right _ _ (by simp)]
  simp [running]

theorem running_null (kept : List (Option α)) (nulls : Nat) (rest : List (Option α)) :
    running kept nulls (none :: rest) = running kept (nulls + 1) rest := by
  simp [running, List.replicate_succ']

theorem swap_running (kept : List (Option α)) (nulls : Nat) (e : Option α) (rest : List (Option α)) :
    swap (running kept nulls (e :: rest)) kept.length (kept.length + nulls) = running (kept ++ [e]) nulls rest := by
  rcases nulls with _ | nulls
  · simp [swap, running]
  · have hfirst : (running kept (nulls + 1) (e :: rest))[kept.length]? = some none := by
      simp [running, List.replicate_succ]
    have hset : (running kept (nulls + 1) (e :: rest)).set kept.length e = running (kept ++ [e]) nulls (e :: rest) := by
      simp [running, List.replicate_succ]
    have hindex : kept.length + (nulls + 1) = (kept ++ [e]).length + nulls := by
      rw [List.length_append, List.length_singleton]
      omega
    rw [swap, getElem?_running, hfirst, Option.getD_some, Option.getD_some, hset, hindex, set_running, running_null]

theorem foldl_turn (goes : α → Bool) (kept : List (Option α)) (nulls : Nat) (rest : List (Option α)) :
    ∃ nulls', (List.range' (kept.length + nulls) rest.length).foldl (turn goes) (running kept nulls rest, kept.length) =
      (running (kept ++ rest.filter (keeps goes)) nulls' [], (kept ++ rest.filter (keeps goes)).length) := by
  induction rest generalizing kept nulls with
  | nil => exact ⟨nulls, by simp⟩
  | cons e rest ih =>
    rw [List.length_cons, List.range'_succ, List.foldl_cons, turn, getElem?_running]
    rcases e with _ | a
    · obtain ⟨nulls', h⟩ := ih kept (nulls + 1)
      refine ⟨nulls', ?_⟩
      rw [← Nat.add_assoc, ← running_null] at h
      simpa [keeps] using h
    · by_cases hgoes : goes a
      · obtain ⟨nulls', h⟩ := ih kept (nulls + 1)
        refine ⟨nulls', ?_⟩
        rw [← Nat.add_assoc, ← running_null] at h
        simpa [keeps, hgoes, set_running] using h
      · obtain ⟨nulls', h⟩ := ih (kept ++ [some a]) nulls
        refine ⟨nulls', ?_⟩
        have hindex : kept.length + nulls + 1 = (kept ++ [some a]).length + nulls := by
          rw [List.length_append, List.length_singleton]
          omega
        rw [hindex]
        simpa [keeps, hgoes, swap_running] using h

/-- **The loop is a filter.** -/
theorem compact_eq_filter (goes : α → Bool) (l : List (Option α)) : compact goes l = l.filter (keeps goes) := by
  obtain ⟨nulls, h⟩ := foldl_turn goes [] 0 l
  have hstart : running ([] : List (Option α)) 0 l = l := by simp [running]
  rw [hstart, List.length_nil, Nat.zero_add, List.nil_append] at h
  rw [compact, h, running, List.take_left]

end Compact
