import Mathlib.Data.List.Basic

/-!
# Texts read in segments

A reader takes an item from the begin of a text and goes on with the remainder. This divides a text into segments, one
for each item, and gives positions in a text two units: elements and items.
-/

/-- A reader that leaves a proper suffix of what it reads. -/
structure Segmenting (α β : Type) where
  next : List α → β × List α
  suffix : ∀ s, (next s).2 <:+ s
  progress : ∀ {s}, s ≠ [] → (next s).2.length < s.length

namespace Segmenting

variable {α β : Type} (r : Segmenting α β)

/-- The items of a text, each with the part of the text it is read from. -/
def segments (r : Segmenting α β) : List α → List (β × List α)
  | [] => []
  | a :: s =>
    ((r.next (a :: s)).1, (a :: s).take ((a :: s).length - (r.next (a :: s)).2.length)) :: segments r (r.next (a :: s)).2
termination_by s => s.length
decreasing_by exact r.progress (List.cons_ne_nil a s)

/-- What follows the first items. -/
def rest (s : List α) (n : Nat) : List α := (((r.segments s).drop n).map Prod.snd).flatten

/-- Where an item begins. -/
def offset (s : List α) (n : Nat) : Nat := (((r.segments s).take n).map Prod.snd).flatten.length

theorem segments_nil : r.segments [] = [] := by rw [segments]

variable {s : List α}

theorem segments_cons (hs : s ≠ []) :
    r.segments s = ((r.next s).1, s.take (s.length - (r.next s).2.length)) :: r.segments (r.next s).2 := by
  obtain ⟨a, s, rfl⟩ := List.exists_cons_of_ne_nil hs
  rw [segments]

theorem take_append_next (s : List α) : s.take (s.length - (r.next s).2.length) ++ (r.next s).2 = s := by
  obtain ⟨t, ht⟩ := r.suffix s
  have hlength : s.length - (r.next s).2.length = t.length := by
    have htotal := congrArg List.length ht
    rw [List.length_append] at htotal
    omega
  have htake : s.take t.length = t := by
    nth_rewrite 1 [← ht]
    rw [List.take_left]
  rw [hlength, htake, ht]

theorem induction {P : List α → Prop} (hnil : P []) (hcons : ∀ s, s ≠ [] → P (r.next s).2 → P s) (s : List α) : P s := by
  induction hlength : s.length using Nat.strongRecOn generalizing s with
  | _ n ih =>
    subst hlength
    by_cases hs : s = []
    · rw [hs]
      exact hnil
    · exact hcons s hs (ih _ (r.progress hs) _ rfl)

theorem rest_zero (s : List α) : r.rest s 0 = s := by
  induction s using r.induction with
  | hnil => rw [rest, segments_nil]; rfl
  | hcons s hs ih =>
    rw [rest, List.drop_zero] at ih ⊢
    rw [r.segments_cons hs, List.map_cons, List.flatten_cons, ih, r.take_append_next]

theorem rest_succ (hs : s ≠ []) (n : Nat) : r.rest s (n + 1) = r.rest (r.next s).2 n := by
  rw [rest, r.segments_cons hs, List.drop_succ_cons]
  rfl

theorem rest_nil (n : Nat) : r.rest [] n = [] := by
  rw [rest, segments_nil, List.drop_nil]
  rfl

theorem segments_rest (s : List α) (n : Nat) : r.segments (r.rest s n) = (r.segments s).drop n := by
  induction n generalizing s with
  | zero => rw [rest_zero, List.drop_zero]
  | succ n ih =>
    by_cases hs : s = []
    · rw [hs, rest_nil, segments_nil, List.drop_nil]
    · rw [r.rest_succ hs, ih, r.segments_cons hs, List.drop_succ_cons]

theorem rest_rest (s : List α) (m n : Nat) : r.rest (r.rest s m) n = r.rest s (m + n) := by
  rw [rest, segments_rest, List.drop_drop, rest]

theorem rest_eq_nil_iff {n : Nat} : r.rest s n = [] ↔ (r.segments s).length ≤ n := by
  constructor
  · intro hrest
    have hsegments := r.segments_rest s n
    rw [hrest, segments_nil] at hsegments
    exact List.drop_eq_nil_iff.mp hsegments.symm
  · intro hle
    rw [rest, List.drop_eq_nil_of_le hle]
    rfl

/-! ### Positions -/

theorem flatten_take_append_rest (s : List α) (n : Nat) :
    (((r.segments s).take n).map Prod.snd).flatten ++ r.rest s n = s := by
  rw [rest, ← List.flatten_append, ← List.map_append, List.take_append_drop, ← List.drop_zero (l := r.segments s)]
  exact r.rest_zero s

theorem offset_add_length_rest (s : List α) (n : Nat) : r.offset s n + (r.rest s n).length = s.length := by
  rw [offset, ← List.length_append, flatten_take_append_rest]

theorem take_offset (s : List α) (n : Nat) : s.take (r.offset s n) = (((r.segments s).take n).map Prod.snd).flatten := by
  rw [offset]
  nth_rewrite 2 [← r.flatten_take_append_rest s n]
  exact List.take_left

theorem offset_eq (s : List α) (n : Nat) : r.offset s n = s.length - (r.rest s n).length := by
  have htotal := r.offset_add_length_rest s n
  omega

theorem offset_of_le {n : Nat} (hn : (r.segments s).length ≤ n) : r.offset s n = s.length := by
  rw [offset_eq, (r.rest_eq_nil_iff).mpr hn, List.length_nil, Nat.sub_zero]

theorem offset_lt_succ {n : Nat} (hn : n < (r.segments s).length) :
    r.offset s n < r.offset s (n + 1) := by
  have hne : r.rest s n ≠ [] := fun hrest => Nat.not_le.mpr hn (r.rest_eq_nil_iff.mp hrest)
  have hless := r.progress hne
  have hnext : r.rest s (n + 1) = (r.next (r.rest s n)).2 := by
    rw [← rest_rest, r.rest_succ hne, rest_zero]
  have htotal := r.offset_add_length_rest s n
  have htotal' := r.offset_add_length_rest s (n + 1)
  rw [hnext] at htotal'
  omega

theorem offset_lt {m n : Nat} (hmn : m < n) (hn : n ≤ (r.segments s).length) :
    r.offset s m < r.offset s n := by
  induction hmn with
  | refl => exact r.offset_lt_succ hn
  | step _ ih => exact Nat.lt_trans (ih (by omega)) (r.offset_lt_succ hn)

theorem offset_lt_iff {m n : Nat} (hm : m ≤ (r.segments s).length) (hn : n ≤ (r.segments s).length) :
    r.offset s m < r.offset s n ↔ m < n := by
  constructor
  · intro hlt
    by_contra hle
    rcases Nat.eq_or_lt_of_le (Nat.not_lt.mp hle) with rfl | hgt
    · exact Nat.lt_irrefl _ hlt
    · exact Nat.lt_asymm hlt (r.offset_lt hgt hm)
  · exact fun hmn => r.offset_lt hmn hn

theorem length_segments_le (s : List α) : (r.segments s).length ≤ s.length := by
  induction s using r.induction with
  | hnil => rw [segments_nil]; exact Nat.le_refl _
  | hcons s hs ih =>
    rw [r.segments_cons hs, List.length_cons]
    have hless := r.progress hs
    omega

end Segmenting
