import Mathlib.Data.List.Basic

/-!
# The age of an entry

A store of entries with keys, and its history: the list of the additions and removals so far. An entry is as old as the
first addition of its key since the key was removed the last time; later additions are updates.
-/

namespace Ages

variable {κ : Type*}

inductive Event (κ : Type*)
  | add (k : κ)
  | remove (k : κ)
deriving DecidableEq

/-- Each addition of the key is followed by a removal. -/
def Absent (es : List (Event κ)) (k : κ) : Prop :=
  ∀ p : Nat, es[p]? = some (Event.add k) → ∃ q : Nat, p < q ∧ es[q]? = some (Event.remove k)

/-- The key is there since the event number `n`. -/
structure CreatedAt (es : List (Event κ)) (k : κ) (n : Nat) : Prop where
  added : es[n]? = some (Event.add k)
  first : Absent (es.take n) k
  kept : ∀ q, n < q → es[q]? ≠ some (Event.remove k)

theorem Absent.nil (k : κ) : Absent [] k := nofun

variable {es : List (Event κ)}

theorem getElem?_snoc {e : Event κ} {n : Nat} {x : Event κ} (h : (es ++ [e])[n]? = some x) :
    es[n]? = some x ∨ n = es.length ∧ e = x := by
  rcases Nat.lt_or_ge n es.length with hlt | hge
  · rw [List.getElem?_append_left hlt] at h
    exact .inl h
  · rw [List.getElem?_append_right hge, List.getElem?_singleton] at h
    split_ifs at h with hzero
    exact .inr ⟨by omega, Option.some.inj h⟩

theorem getElem?_snoc_of {n : Nat} {x : Event κ} (e : Event κ) (h : es[n]? = some x) :
    (es ++ [e])[n]? = some x := by
  rw [List.getElem?_append_left (List.getElem?_eq_some_iff.1 h).1]
  exact h

theorem CreatedAt.lt {k : κ} {n : Nat} (h : CreatedAt es k n) : n < es.length :=
  (List.getElem?_eq_some_iff.1 h.added).1

theorem Absent.snoc {k : κ} (h : Absent es k) {e : Event κ} (he : e ≠ .add k) :
    Absent (es ++ [e]) k := by
  intro p hp
  rcases getElem?_snoc hp with hp | ⟨-, rfl⟩
  · obtain ⟨q, hpq, hq⟩ := h p hp
    exact ⟨q, hpq, getElem?_snoc_of e hq⟩
  · exact absurd rfl he

theorem Absent.removed (es : List (Event κ)) (k : κ) : Absent (es ++ [Event.remove k]) k := by
  intro p hp
  rcases getElem?_snoc hp with hp | ⟨-, h⟩
  · exact ⟨es.length, (List.getElem?_eq_some_iff.1 hp).1, List.getElem?_concat_length⟩
  · cases h

theorem CreatedAt.snoc {k : κ} {n : Nat} (h : CreatedAt es k n) {e : Event κ}
    (he : e ≠ .remove k) : CreatedAt (es ++ [e]) k n where
  added := getElem?_snoc_of e h.added
  first := by
    rw [List.take_append_of_le_length (Nat.le_of_lt h.lt)]
    exact h.first
  kept := by
    intro q hq hremove
    rcases getElem?_snoc hremove with hremove | ⟨-, rfl⟩
    · exact h.kept q hq hremove
    · exact he rfl

theorem Absent.created {k : κ} (h : Absent es k) : CreatedAt (es ++ [Event.add k]) k es.length where
  added := List.getElem?_concat_length
  first := by
    rw [List.take_left]
    exact h
  kept := by
    intro q hq hremove
    rcases getElem?_snoc hremove with hremove | ⟨-, h⟩
    · exact Nat.lt_asymm hq (List.getElem?_eq_some_iff.1 hremove).1
    · cases h

theorem CreatedAt.unique {k : κ} {n m : Nat} (hn : CreatedAt es k n) (hm : CreatedAt es k m) :
    n = m := by
  have hle : ∀ {n m : Nat}, CreatedAt es k n → CreatedAt es k m → m ≤ n := by
    intro n m hn hm
    by_contra hlt
    rw [Nat.not_le] at hlt
    have hadd : (es.take m)[n]? = some (Event.add k) := by
      rw [List.getElem?_take_of_lt hlt]
      exact hn.added
    obtain ⟨q, hnq, hq⟩ := hm.first n hadd
    have hqm : q < m := Nat.lt_of_lt_of_le (List.getElem?_eq_some_iff.1 hq).1 (List.length_take_le _ _)
    rw [List.getElem?_take_of_lt hqm] at hq
    exact hn.kept q hnq hq
  exact Nat.le_antisymm (hle hm hn) (hle hn hm)

theorem CreatedAt.not_absent {k : κ} {n : Nat} (h : CreatedAt es k n) : ¬Absent es k := by
  intro habsent
  obtain ⟨q, hnq, hq⟩ := habsent n h.added
  exact h.kept q hnq hq

theorem CreatedAt.take {k : κ} {n m : Nat} (h : CreatedAt es k n) (hm : n < m) :
    CreatedAt (es.take m) k n where
  added := by
    rw [List.getElem?_take_of_lt hm]
    exact h.added
  first := by
    rw [List.take_take, Nat.min_eq_left (Nat.le_of_lt hm)]
    exact h.first
  kept := by
    intro q hq hremove
    have hqm : q < m := Nat.lt_of_lt_of_le (List.getElem?_eq_some_iff.1 hremove).1 (List.length_take_le _ _)
    rw [List.getElem?_take_of_lt hqm] at hremove
    exact h.kept q hq hremove

end Ages
