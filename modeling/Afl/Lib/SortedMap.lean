import Mathlib.Order.Defs.Unbundled

/-!
# Sorted maps

A map from the keys of a strict order as the list of its entries in that order. A search from the end finds the
greatest entry that qualifies.
-/

/-- A map as the list of its entries, in the order of the keys. -/
structure SortedMap {κ : Type} (lt : κ → κ → Prop) (π : Type) where
  entries : List (κ × π)
  sorted : entries.Pairwise fun e e' => lt e.1 e'.1

namespace SortedMap

variable {κ π β : Type} {lt : κ → κ → Prop}

def empty : SortedMap lt π := ⟨[], .nil⟩

/-- The first result from the end. -/
def findLast? (m : SortedMap lt π) (f : κ × π → Option β) : Option β := m.entries.reverse.findSome? f

theorem findLast?_eq_none {m : SortedMap lt π} {f : κ × π → Option β} :
    m.findLast? f = none ↔ ∀ e ∈ m.entries, f e = none := by
  rw [findLast?, List.findSome?_eq_none_iff]
  simp only [List.mem_reverse]

variable [IsStrictTotalOrder κ lt]

/-- A new entry takes the place of the one with its key. -/
def insertNew [DecidableRel lt] (m : SortedMap lt π) (k : κ) (p : π) : SortedMap lt π where
  entries := m.entries.filter (fun e => lt e.1 k) ++ (k, p) :: m.entries.filter fun e => lt k e.1
  sorted := by
    have hbelow : ∀ e ∈ m.entries.filter (fun e => lt e.1 k), lt e.1 k :=
      fun e he => of_decide_eq_true (List.mem_filter.mp he).2
    have habove : ∀ e ∈ m.entries.filter (fun e => lt k e.1), lt k e.1 :=
      fun e he => of_decide_eq_true (List.mem_filter.mp he).2
    refine List.pairwise_append.mpr ⟨m.sorted.filter _, List.pairwise_cons.mpr ⟨habove, m.sorted.filter _⟩, ?_⟩
    intro e he e' he'
    rcases List.mem_cons.mp he' with rfl | he'
    · exact hbelow e he
    · exact trans_of lt (hbelow e he) (habove e' he')

theorem mem_insertNew [DecidableRel lt] {m : SortedMap lt π} {k : κ} {p : π} {e : κ × π} :
    e ∈ (m.insertNew k p).entries ↔ e = (k, p) ∨ e.1 ≠ k ∧ e ∈ m.entries := by
  have hne : lt e.1 k ∨ lt k e.1 ↔ e.1 ≠ k := by
    constructor
    · rintro (hlt | hlt) rfl
      · exact irrefl_of lt _ hlt
      · exact irrefl_of lt _ hlt
    · intro hne
      rcases trichotomous_of lt e.1 k with hlt | heq | hlt
      · exact .inl hlt
      · exact absurd heq hne
      · exact .inr hlt
  rw [insertNew, List.mem_append, List.mem_cons, List.mem_filter, List.mem_filter, decide_eq_true_eq,
    decide_eq_true_eq, ← hne, or_left_comm, ← and_or_left, and_comm]

theorem findLast?_eq_some {m : SortedMap lt π} {f : κ × π → Option β} {b : β} (h : m.findLast? f = some b) :
    ∃ e ∈ m.entries, f e = some b ∧ ∀ e' ∈ m.entries, f e' ≠ none → ¬lt e.1 e'.1 := by
  obtain ⟨l, e, l', heq, hb, hnone⟩ := List.findSome?_eq_some_iff.mp h
  have hsorted : (l ++ e :: l').Pairwise fun e e' => lt e'.1 e.1 := heq ▸ List.pairwise_reverse.mpr m.sorted
  have hmem : ∀ {e'}, e' ∈ m.entries ↔ e' ∈ l ++ e :: l' := by
    intro e'
    rw [← heq, List.mem_reverse]
  refine ⟨e, hmem.mpr (List.mem_append_right _ List.mem_cons_self), hb, ?_⟩
  intro e' he' hsome hlt
  rcases List.mem_append.mp (hmem.mp he') with hbefore | hafter
  · exact hsome (hnone e' hbefore)
  · rcases List.mem_cons.mp hafter with rfl | hafter
    · exact irrefl_of lt _ hlt
    · exact asymm_of lt hlt ((List.pairwise_cons.mp (List.pairwise_append.mp hsorted).2.1).1 e' hafter)

end SortedMap
