import Mathlib.Data.Finmap

/-!
# Updates of finite maps

Laws of `Finmap.insert` and `Finmap.erase` that decide when an update changes a map, and what is left after
a list of keys was erased.
-/

namespace Finmap

variable {α : Type} {β : α → Type} [DecidableEq α]

theorem insert_of_lookup {m : Finmap β} {a : α} {b : β a} (h : m.lookup a = some b) : m.insert a b = m := by
  apply Finmap.ext_lookup
  intro a'
  by_cases hne : a' = a
  · subst hne
    rw [lookup_insert, h]
  · rw [lookup_insert_of_ne _ hne]

theorem insert_eq_self_iff {m : Finmap β} {a : α} {b : β a} : m.insert a b = m ↔ m.lookup a = some b :=
  ⟨fun h => by rw [← h, lookup_insert], insert_of_lookup⟩

theorem insert_ne_empty (m : Finmap β) (a : α) (b : β a) : m.insert a b ≠ ∅ := by
  intro h
  have hlookup := congrArg (lookup a) h
  simp [lookup_insert] at hlookup

theorem erase_insert_self (m : Finmap β) (a : α) (b : β a) : (m.insert a b).erase a = m.erase a := by
  apply Finmap.ext_lookup
  intro a'
  by_cases hne : a' = a
  · subst hne
    rw [lookup_erase, lookup_erase]
  · rw [lookup_erase_ne hne, lookup_erase_ne hne, lookup_insert_of_ne _ hne]

theorem insert_erase_self (m : Finmap β) (a : α) (b : β a) : (m.erase a).insert a b = m.insert a b := by
  apply Finmap.ext_lookup
  intro a'
  by_cases hne : a' = a
  · subst hne
    rw [lookup_insert, lookup_insert]
  · rw [lookup_insert_of_ne _ hne, lookup_insert_of_ne _ hne, lookup_erase_ne hne]

theorem erase_of_lookup_none {m : Finmap β} {a : α} (h : m.lookup a = none) : m.erase a = m := by
  apply Finmap.ext_lookup
  intro a'
  by_cases hne : a' = a
  · subst hne
    rw [lookup_erase, h]
  · rw [lookup_erase_ne hne]

/-! ### Sums over the entries -/

section

variable {M : Type} [AddCommMonoid M] (f : ∀ a, β a → M)

/-- The sum of `f` over the entries. -/
def total (m : Finmap β) : M := (m.entries.map fun e => f e.1 e.2).sum

/-- What the entry of one key adds to the sum. -/
def part (m : Finmap β) (a : α) : M :=
  match m.lookup a with
  | none => 0
  | some b => f a b

theorem total_eq_part_add (m : Finmap β) (a : α) : m.total f = m.part f a + (m.erase a).total f := by
  rw [part]
  cases h : m.lookup a with
  | none => rw [erase_of_lookup_none h, zero_add]
  | some b =>
    have hinsert : (m.erase a).insert a b = m := by rw [insert_erase_self, insert_of_lookup h]
    calc m.total f = ((m.erase a).insert a b).total f := by rw [hinsert]
      _ = f a b + (m.erase a).total f := by
        rw [total, entries_insert_of_notMem notMem_erase_self, Multiset.map_cons, Multiset.sum_cons]
        rfl

theorem total_of_agree {m m' : Finmap β} {a : α} (hframe : ∀ x, x ≠ a → m'.lookup x = m.lookup x) {u v : M}
    (hpart : m'.part f a + u = m.part f a + v) : m'.total f + u = m.total f + v := by
  have hrest : m'.erase a = m.erase a := by
    apply Finmap.ext_lookup
    intro x
    by_cases hx : x = a
    · subst hx
      rw [lookup_erase, lookup_erase]
    · rw [lookup_erase_ne hx, lookup_erase_ne hx, hframe x hx]
  rw [total_eq_part_add f m' a, total_eq_part_add f m a, hrest, add_right_comm, hpart, add_right_comm]

theorem total_of_agree_two {m m' : Finmap β} {a b : α} (hne : a ≠ b)
    (hframe : ∀ x, x ≠ a → x ≠ b → m'.lookup x = m.lookup x) {u v : M}
    (hpart : m'.part f a + m'.part f b + u = m.part f a + m.part f b + v) : m'.total f + u = m.total f + v := by
  have hb : ∀ m : Finmap β, m.total f = m.part f b + (m.erase b).total f := fun m => total_eq_part_add f m b
  have ha : ∀ m : Finmap β, (m.erase b).part f a = m.part f a := fun m => by rw [part, part, lookup_erase_ne hne]
  have herase : (m'.erase b).total f + (m'.part f b + u) = (m.erase b).total f + (m.part f b + v) := by
    apply total_of_agree f (a := a)
    · intro x hx
      by_cases hxb : x = b
      · subst hxb
        rw [lookup_erase, lookup_erase]
      · rw [lookup_erase_ne hxb, lookup_erase_ne hxb, hframe x hx hxb]
    · rw [ha, ha, ← add_assoc, ← add_assoc, hpart]
  rw [hb m', hb m, add_comm (part f m' b), add_comm (part f m b), add_assoc, add_assoc]
  exact herase

end

/-! ### Erasing a list of keys -/

/-- The map after the keys were erased one after another. -/
def eraseAll (m : Finmap β) (keys : List α) : Finmap β := keys.foldl (fun m a => m.erase a) m

theorem eraseAll_concat (m : Finmap β) (keys : List α) (a : α) :
    eraseAll m (keys ++ [a]) = (eraseAll m keys).erase a := by
  simp [eraseAll]

@[simp] theorem eraseAll_cons (m : Finmap β) (a : α) (keys : List α) :
    eraseAll m (a :: keys) = eraseAll (m.erase a) keys := rfl

theorem lookup_eraseAll (m : Finmap β) (keys : List α) (a : α) :
    (eraseAll m keys).lookup a = if a ∈ keys then none else m.lookup a := by
  induction keys generalizing m with
  | nil => simp [eraseAll]
  | cons key keys ih =>
    rw [eraseAll_cons, ih]
    by_cases hne : a = key
    · subst hne
      simp [lookup_erase]
    · simp [lookup_erase_ne hne, hne]

theorem eraseAll_eq_self_iff {m : Finmap β} {keys : List α} :
    eraseAll m keys = m ↔ ∀ a ∈ keys, m.lookup a = none := by
  constructor
  · intro h a ha
    rw [← h, lookup_eraseAll, if_pos ha]
  · intro h
    apply Finmap.ext_lookup
    intro a
    rw [lookup_eraseAll]
    split
    · rename_i ha
      exact (h a ha).symm
    · rfl

theorem eraseAll_eq_empty_iff {m : Finmap β} {keys : List α} :
    eraseAll m keys = ∅ ↔ ∀ a, m.lookup a ≠ none → a ∈ keys := by
  constructor
  · intro h a ha
    have hlookup := congrArg (lookup a) h
    rw [lookup_eraseAll, lookup_empty] at hlookup
    by_contra hmem
    rw [if_neg hmem] at hlookup
    exact ha hlookup
  · intro h
    apply Finmap.ext_lookup
    intro a
    rw [lookup_eraseAll, lookup_empty]
    split
    · rfl
    · rename_i hmem
      exact not_not.mp fun ha => hmem (h a ha)

end Finmap
