import Afl.Container.BackPointers
import Mathlib.Order.Lattice.Nat

/-!
# Sorting and merging a `PtrMultiList`

`sort` and `merge` of `afl/container/ptrmultilist.hpp`, on the nodes and iterators of the `PtrMultiListBase` that is the
list's `m_data`. Iterators are passed by value: each copy registers itself in the list and unregisters itself when it is
destroyed. Addresses come from an allocator.
-/

namespace Afl.Container

open Intrusive PtrMultiListBase

/-- An allocator: an address that is not in use. -/
structure Allocator where
  alloc : Finset Nat → Nat
  unused : ∀ used, alloc used ∉ used

namespace PtrMultiList

variable {α : Type} (A : Allocator)

/-! ### The operations that `sort` and `merge` use -/

/-- `iterator::iterator(PtrMultiListBase::iterator it)`: a copy of the argument, which is destroyed afterwards. -/
def iterator (s : PtrMultiListBase α) (it : IterId) : Option (IterId × PtrMultiListBase α) := do
  let m_it := A.alloc s.cursors.keys
  let s ← s.copyIterator m_it it
  let s ← s.destroyIterator it
  pure (m_it, s)

def beginIterator (s : PtrMultiListBase α) : Option (IterId × PtrMultiListBase α) := do
  let it := A.alloc s.cursors.keys
  let s ← s.beginIterator it
  iterator A s it

def endIterator (s : PtrMultiListBase α) : Option (IterId × PtrMultiListBase α) := do
  let it := A.alloc s.cursors.keys
  let s ← s.endIterator it
  iterator A s it

/-- `iterator::operator==`. -/
def equal (s : PtrMultiListBase α) (i other : IterId) : Option Bool := do
  let a ← s.cursors.lookup i
  let b ← s.cursors.lookup other
  pure (b.m_item = a.m_item && b.m_nextItem = a.m_nextItem)

/-- `iterator::operator*`. No value stands for a null pointer, too. -/
def get (s : PtrMultiListBase α) (i : IterId) : Option α := do
  let c ← s.cursors.lookup i
  let item ← c.m_item
  s.m_data.lookup item

def pushBackNew (s : PtrMultiListBase α) (t : α) : Option (PtrMultiListBase α) :=
  s.pushBackNew (A.alloc s.m_data.keys) t

/-- `insertNew`: the iterator that it returns and the new state. -/
def insertNew (s : PtrMultiListBase α) (it : IterId) (p : α) : Option (IterId × PtrMultiListBase α) := do
  let result := A.alloc s.cursors.keys
  let s ← s.insert it (A.alloc s.m_data.keys) result p
  iterator A s result

/-- `extractElement`, whose parameter is a copy of the iterator `i`. No value stands for a null pointer, too. -/
def extractElement (s : PtrMultiListBase α) (i : IterId) : Option (α × PtrMultiListBase α) := do
  let it := A.alloc s.cursors.keys
  let s ← s.copyIterator it i
  let (data, s) ← s.extractElement it
  let s ← s.destroyIterator it
  let data ← data
  pure (data, s)

def extractFront (s : PtrMultiListBase α) : Option (α × PtrMultiListBase α) := do
  let (data, s) ← s.extractFront (A.alloc s.cursors.keys)
  let data ← data
  pure (data, s)

/-! ### `merge` -/

variable (p : α → α → Bool)

/-- `while (i != e && p(*i, elem))`. -/
def skipLoop (i e : IterId) (elem : α) : Nat → PtrMultiListBase α → Option (PtrMultiListBase α)
  | 0, _ => none
  | fuel + 1, s => do
    if ← equal s i e then pure s
    else if p (← get s i) elem then
      let s ← s.nextIterator i
      skipLoop i e elem fuel s
    else pure s

/-- `while (!other.empty())`. -/
def mergeLoop (i e : IterId) : Nat → PtrMultiListBase α → PtrMultiListBase α →
    Option (PtrMultiListBase α × PtrMultiListBase α)
  | 0, _, _ => none
  | fuel + 1, s, other =>
    if other.nodes.first = none then some (s, other)
    else do
      let (elem, other) ← extractFront A other
      let s ← skipLoop p i e elem (s.m_data.keys.card + 1) s
      let (result, s) ← insertNew A s i elem
      let s ← s.destroyIterator result
      mergeLoop i e fuel s other

def merge (s other : PtrMultiListBase α) : Option (PtrMultiListBase α × PtrMultiListBase α) := do
  let (i, s) ← beginIterator A s
  let (e, s) ← endIterator A s
  let (s, other) ← mergeLoop A p i e (other.m_data.keys.card + 1) s other
  let s ← s.destroyIterator e
  let s ← s.destroyIterator i
  pure (s, other)

/-! ### `sort` -/

/-- The body of the loop of `sort`: every other element moves to `tmp`. -/
def moveOther (i : IterId) (n : Nat) (s tmp : PtrMultiListBase α) :
    Option (PtrMultiListBase α × PtrMultiListBase α) :=
  if n &&& 1 ≠ 0 then do
    let (t, s) ← extractElement A s i
    let tmp ← pushBackNew A tmp t
    pure (s, tmp)
  else some (s, tmp)

/-- `for (iterator i = begin(), e = end(); i != e; ++i, ++n)`. -/
def splitLoop (i e : IterId) : Nat → Nat → PtrMultiListBase α → PtrMultiListBase α →
    Option (Nat × PtrMultiListBase α × PtrMultiListBase α)
  | 0, _, _, _ => none
  | fuel + 1, n, s, tmp => do
    if ← equal s i e then pure (n, s, tmp)
    else
      let (s, tmp) ← moveOther A i n s tmp
      let s ← s.nextIterator i
      splitLoop i e fuel (n + 1) s tmp

/-- Move every other element into another list. -/
def split (s tmp : PtrMultiListBase α) : Option (Nat × PtrMultiListBase α × PtrMultiListBase α) := do
  let (i, s) ← beginIterator A s
  let (e, s) ← endIterator A s
  let (n, s, tmp) ← splitLoop A i e (s.m_data.keys.card + 1) 0 s tmp
  let s ← s.destroyIterator e
  let s ← s.destroyIterator i
  pure (n, s, tmp)

/-- `sort`, with a bound for the depth of the recursion. The destructor of `tmp` clears the list. -/
def sortDepth : Nat → PtrMultiListBase α → Option (PtrMultiListBase α)
  | 0, _ => none
  | depth + 1, s => do
    let (n, s, tmp) ← split A s new
    let tmp ← if n > 2 then sortDepth depth tmp else pure tmp
    let s ← if n > 2 then sortDepth depth s else pure s
    let (s, tmp) ← merge A p s tmp
    let tmp ← tmp.clear (A.alloc tmp.cursors.keys)
    pure { s with deleted := s.deleted ++ tmp.deleted }

def sort (s : PtrMultiListBase α) : Option (PtrMultiListBase α) := sortDepth A p (s.m_data.keys.card + 1) s

/-- The lists that appending, sorting and merging make. -/
inductive Built : PtrMultiListBase α → Prop
  | new : Built PtrMultiListBase.new
  | pushBackNew {s s' : PtrMultiListBase α} (t : α) (hs : Built s) (hs' : pushBackNew A s t = some s') : Built s'
  | sort {s s' : PtrMultiListBase α} (p : α → α → Bool) (hs : Built s) (hs' : sort A p s = some s') : Built s'
  | merge {s other s' other' : PtrMultiListBase α} (p : α → α → Bool) (hs : Built s) (hother : Built other)
      (hs' : merge A p s other = some (s', other')) : Built s'
  | other {s other s' other' : PtrMultiListBase α} (p : α → α → Bool) (hs : Built s) (hother : Built other)
      (hs' : merge A p s other = some (s', other')) : Built other'

/-! ### What the operations do to nodes and iterators -/

/-- The nodes are the sequence `ids`. -/
def Ok (s : PtrMultiListBase α) (ids : List NodeId) : Prop := ∃ its, WellFormed s ids its

/-- The cursor of an iterator at the first of the nodes `ids`, which are the last ones of the list. -/
def cursorAt (ids : List NodeId) : Cursor := ⟨ids.head?, ids.tail.head?⟩

/-- Nodes and elements stay, and `f` is done to every iterator. -/
structure Moves (s s' : PtrMultiListBase α) (f : IterId → Option Cursor → Option Cursor) : Prop where
  data : s'.m_data = s.m_data
  deleted : s'.deleted = s.deleted
  lookup : ∀ j, s'.cursors.lookup j = f j (s.cursors.lookup j)

def add (i : IterId) (c : Cursor) (j : IterId) (old : Option Cursor) : Option Cursor := if j = i then some c else old

/-- Remove the iterator `i`. -/
def drop (i j : IterId) (old : Option Cursor) : Option Cursor := if j = i then none else old

section
variable {A} {s : PtrMultiListBase α} {ids da dr : List NodeId}

variable {i : IterId}

theorem not_mem_keys_iff {m : Finmap fun _ : IterId => Cursor} : i ∉ m.keys ↔ m.lookup i = none := by
  rw [Finmap.mem_keys, Finmap.lookup_eq_none]

theorem lookup_alloc (A : Allocator) (s : PtrMultiListBase α) : s.cursors.lookup (A.alloc s.cursors.keys) = none :=
  not_mem_keys_iff.1 (A.unused _)

theorem lookup_insert (m : Finmap fun _ : IterId => Cursor) (i : IterId) (c : Cursor) (j : IterId) :
    (m.insert i c).lookup j = add i c j (m.lookup j) := by
  rw [add]
  split_ifs with hj
  · rw [hj, Finmap.lookup_insert]
  · rw [Finmap.lookup_insert_of_ne _ hj]

theorem lookup_erase (m : Finmap fun _ : IterId => Cursor) (i j : IterId) :
    (m.erase i).lookup j = drop i j (m.lookup j) := by
  rw [drop]
  split_ifs with hj
  · rw [hj, Finmap.lookup_erase]
  · rw [Finmap.lookup_erase_ne hj]

theorem cursorAt_eq (h : Ok s (da ++ dr)) : (⟨dr.head?, dr.head?.bind s.nodes.next⟩ : Cursor) = cursorAt dr := by
  obtain ⟨its, hwf⟩ := h
  rcases dr with _ | ⟨x, dr⟩
  · rfl
  · rw [cursorAt, List.head?_cons, Option.bind_some, hwf.nodes.listed.next_eq]
    rfl

variable {c : Cursor}

theorem copyIterator_spec (h : Ok s ids) {i other : IterId} (hi : s.cursors.lookup i = none)
    (hc : s.cursors.lookup other = some c) :
    ∃ s', s.copyIterator i other = some s' ∧ Ok s' ids ∧ Moves s s' (add i c) := by
  obtain ⟨its, hwf⟩ := h
  obtain ⟨s', its', hs', -, -, hwf'⟩ :=
    hwf.keeps_copyIterator (not_mem_keys_iff.2 hi) (Container.mem_keys_iff.2 ⟨c, hc⟩)
  refine ⟨s', hs', ⟨its', hwf'⟩, ?_⟩
  unfold PtrMultiListBase.copyIterator at hs'
  rw [if_neg (not_mem_keys_iff.2 hi), hc] at hs'
  cases hs'
  exact ⟨rfl, rfl, lookup_insert s.cursors i c⟩

theorem destroyIterator_spec (h : Ok s ids) (hc : s.cursors.lookup i = some c) :
    ∃ s', s.destroyIterator i = some s' ∧ Ok s' ids ∧ Moves s s' (drop i) := by
  obtain ⟨its, hwf⟩ := h
  obtain ⟨s', its', hs', -, -, hwf'⟩ := hwf.keeps_destroyIterator (Container.mem_keys_iff.2 ⟨c, hc⟩)
  refine ⟨s', hs', ⟨its', hwf'⟩, ?_⟩
  unfold PtrMultiListBase.destroyIterator at hs'
  rw [hc] at hs'
  cases hs'
  exact ⟨rfl, rfl, lookup_erase s.cursors i⟩

theorem newIterator_spec (h : Ok s (da ++ dr)) (hi : s.cursors.lookup i = none) :
    ∃ s', s.newIterator i dr.head? = some s' ∧ Ok s' (da ++ dr) ∧ Moves s s' (add i (cursorAt dr)) := by
  have hcursor := cursorAt_eq h
  obtain ⟨its, hwf⟩ := h
  have hitem : ∀ x ∈ dr.head?, x ∈ da ++ dr := fun x hx => List.mem_append_right da (List.mem_of_head? hx)
  obtain ⟨hs', hwf'⟩ := hwf.newIterator (not_mem_keys_iff.2 hi) hitem
  refine ⟨_, hs', ⟨_, hwf'⟩, rfl, rfl, ?_⟩
  rw [← hcursor]
  exact lookup_insert s.cursors i _

theorem nextIterator_spec (h : Ok s (da ++ dr)) (hc : s.cursors.lookup i = some c) (hnext : c.m_nextItem = dr.head?) :
    ∃ s', s.nextIterator i = some s' ∧ Ok s' (da ++ dr) ∧ Moves s s' (add i (cursorAt dr)) := by
  have hcursor := cursorAt_eq h
  obtain ⟨its, hwf⟩ := h
  obtain ⟨s', its', hs', -, -, hwf'⟩ := hwf.keeps_nextIterator (Container.mem_keys_iff.2 ⟨c, hc⟩)
  have hderefs : s.derefs dr.head?.toList = some () := by
    apply hwf.nodes.derefs_eq
    intro x hx
    exact List.mem_append_right da (List.mem_of_head? (Option.mem_toList.1 hx))
  refine ⟨s', hs', ⟨its', hwf'⟩, ?_⟩
  unfold PtrMultiListBase.nextIterator at hs'
  rw [hc, Option.bind_eq_bind, Option.bind_some, hnext, hderefs] at hs'
  cases hs'
  rw [← hcursor]
  exact ⟨rfl, rfl, lookup_insert s.cursors i _⟩

theorem base_endIterator_spec (h : Ok s ids) (hi : s.cursors.lookup i = none) :
    ∃ s', s.endIterator i = some s' ∧ Ok s' ids ∧ Moves s s' (add i ⟨none, none⟩) := by
  obtain ⟨its, hwf⟩ := h
  obtain ⟨s', its', hs', -, -, hwf'⟩ := hwf.keeps_endIterator (not_mem_keys_iff.2 hi)
  refine ⟨s', hs', ⟨its', hwf'⟩, ?_⟩
  unfold PtrMultiListBase.endIterator at hs'
  rw [if_neg (not_mem_keys_iff.2 hi)] at hs'
  cases hs'
  exact ⟨rfl, rfl, lookup_insert s.cursors i _⟩

theorem iterator_spec (h : Ok s ids) {it : IterId} (hc : s.cursors.lookup it = some c) :
    ∃ i s', iterator A s it = some (i, s') ∧ Ok s' ids ∧ s.cursors.lookup i = none ∧
      Moves s s' fun j old => add i c j (drop it j old) := by
  obtain ⟨s₁, hs₁, hok₁, hmoves₁⟩ := copyIterator_spec h (lookup_alloc A s) hc
  have hne : it ≠ A.alloc s.cursors.keys := by
    rintro heq
    rw [heq, lookup_alloc] at hc
    cases hc
  have hit : s₁.cursors.lookup it = some c := by rw [hmoves₁.lookup, add, if_neg hne, hc]
  obtain ⟨s₂, hs₂, hok₂, hmoves₂⟩ := destroyIterator_spec hok₁ hit
  refine ⟨A.alloc s.cursors.keys, s₂, ?_, hok₂, lookup_alloc A s, hmoves₂.data.trans hmoves₁.data,
    hmoves₂.deleted.trans hmoves₁.deleted, fun j => ?_⟩
  · rw [iterator, hs₁, Option.bind_eq_bind, Option.bind_some, hs₂]
    rfl
  · rw [hmoves₂.lookup, hmoves₁.lookup, drop, add, add, drop]
    by_cases hj : j = it
    · rw [if_pos hj, if_neg (hj ▸ hne), if_pos hj]
    · rw [if_neg hj, if_neg hj]

theorem iterator_new_spec {s₁ : PtrMultiListBase α} {it : IterId} (hnew : s.cursors.lookup it = none)
    (hok : Ok s₁ ids) (hmoves : Moves s s₁ (add it c)) :
    ∃ i s', iterator A s₁ it = some (i, s') ∧ Ok s' ids ∧ s.cursors.lookup i = none ∧ Moves s s' (add i c) := by
  have hit : s₁.cursors.lookup it = some c := by rw [hmoves.lookup, add, if_pos rfl]
  obtain ⟨i, s', hs', hok', hi, hmoves'⟩ := iterator_spec (A := A) hok hit
  refine ⟨i, s', hs', hok', ?_, hmoves'.data.trans hmoves.data, hmoves'.deleted.trans hmoves.deleted, fun j => ?_⟩
  · rw [hmoves.lookup, add] at hi
    split_ifs at hi
    exact hi
  · rw [hmoves'.lookup, hmoves.lookup, add, drop, add, add]
    by_cases hj : j = it
    · rw [if_pos hj, hj, hnew]
    · rw [if_neg hj, if_neg hj]

theorem beginIterator_spec (h : Ok s ids) :
    ∃ i s', beginIterator A s = some (i, s') ∧ Ok s' ids ∧ s.cursors.lookup i = none ∧
      Moves s s' (add i (cursorAt ids)) := by
  have hwhole : Ok s ([] ++ ids) := h
  obtain ⟨s₁, hs₁, hok₁, hmoves₁⟩ := newIterator_spec hwhole (lookup_alloc A s)
  obtain ⟨i, s', hs', hrest⟩ := iterator_new_spec (A := A) (lookup_alloc A s) hok₁ hmoves₁
  have hfirst : s.nodes.first = ids.head? := by
    obtain ⟨its, hwf⟩ := h
    exact hwf.nodes.first_eq
  refine ⟨i, s', ?_, hrest⟩
  rw [beginIterator, PtrMultiListBase.beginIterator, hfirst, hs₁]
  exact hs'

theorem endIterator_spec (h : Ok s ids) :
    ∃ e s', endIterator A s = some (e, s') ∧ Ok s' ids ∧ s.cursors.lookup e = none ∧
      Moves s s' (add e ⟨none, none⟩) := by
  obtain ⟨s₁, hs₁, hok₁, hmoves₁⟩ := base_endIterator_spec h (lookup_alloc A s)
  obtain ⟨e, s', hs', hrest⟩ := iterator_new_spec (A := A) (lookup_alloc A s) hok₁ hmoves₁
  refine ⟨e, s', ?_, hrest⟩
  rw [endIterator, hs₁]
  exact hs'

/-- An insertion or a removal: `body` is done to every iterator. -/
structure Changes (s s' : PtrMultiListBase α) (data : Finmap fun _ : NodeId => α) (body : Cursor → Cursor) : Prop where
  data : s'.m_data = data
  deleted : s'.deleted = s.deleted
  lookup : ∀ j, s'.cursors.lookup j = (s.cursors.lookup j).map body

theorem insertAtEnd_spec (h : Ok s ids) {n : NodeId} (hn : n ∉ s.m_data.keys) (x : α) :
    ∃ s', s.insertAtEnd n x = some s' ∧ Ok s' (ids ++ [n]) ∧ Changes s s' (s.m_data.insert n x) id := by
  obtain ⟨its, hwf⟩ := h
  obtain ⟨s', hs', hdata, hcursors, hwf'⟩ := hwf.insertAtEnd hn x
  refine ⟨s', hs', ⟨its, hwf'⟩, hdata, ?_, fun j => by rw [hcursors, Option.map_id, id]⟩
  unfold PtrMultiListBase.insertAtEnd at hs'
  obtain ⟨-, -, hs'⟩ := Option.bind_eq_some_iff.1 hs'
  obtain ⟨-, -, hs'⟩ := Option.bind_eq_some_iff.1 hs'
  rw [← Option.some.inj hs']

variable {item : NodeId}

theorem insertBefore_spec (h : Ok s (da ++ item :: dr)) {n : NodeId} (hn : n ∉ s.m_data.keys) (x : α) :
    ∃ s', s.insertBefore item n x = some s' ∧ Ok s' (da ++ n :: item :: dr) ∧
      Changes s s' (s.m_data.insert n x) (rewriteCursor item n) := by
  obtain ⟨its, hwf⟩ := h
  obtain ⟨s', hs', hdata, -, hwf'⟩ := hwf.insertBefore hn x
  refine ⟨s', hs', ⟨its, hwf'⟩, ?_⟩
  have hnull : rewriteCursor item n ⟨none, none⟩ = ⟨none, none⟩ := by simp [rewriteCursor]
  rw [insertBefore_eq] at hs'
  obtain ⟨-, -, hs'⟩ := Option.bind_eq_some_iff.1 hs'
  obtain ⟨-, -, hs'⟩ := Option.bind_eq_some_iff.1 hs'
  obtain ⟨q, -, hs'⟩ := Option.bind_eq_some_iff.1 hs'
  obtain ⟨-, -, hs'⟩ := Option.bind_eq_some_iff.1 hs'
  cases hs'
  exact ⟨hdata, rfl, lookup_forIterators (s := { s with
      m_data := s.m_data.insert n x
      nodes := (((s.nodes.write (.next n) (some item)).setPThis n (some q)).write q (some n)).setPThis item
        (some (.next n)) }) hwf.iterators hnull⟩

theorem removeNode_spec (h : Ok s (da ++ item :: dr)) :
    ∃ s', s.removeNode item = some s' ∧ Ok s' (da ++ dr) ∧
      Changes s s' (s.m_data.erase item) (eraseCursor item dr.head?) := by
  obtain ⟨its, hwf⟩ := h
  obtain ⟨s', hs', hdata, -, hwf'⟩ := hwf.removeNode
  refine ⟨s', hs', ⟨its, hwf'⟩, ?_⟩
  have hnull : eraseCursor item (s.nodes.next item) ⟨none, none⟩ = ⟨none, none⟩ := by simp [eraseCursor]
  rw [removeNode_eq] at hs'
  obtain ⟨-, -, hs'⟩ := Option.bind_eq_some_iff.1 hs'
  obtain ⟨q, -, hs'⟩ := Option.bind_eq_some_iff.1 hs'
  obtain ⟨-, -, hs'⟩ := Option.bind_eq_some_iff.1 hs'
  cases hs'
  rw [← hwf.nodes.listed.next_eq]
  exact ⟨hdata, rfl, lookup_forIterators hwf.iterators hnull⟩

theorem Changes.temporary {s₁ s₂ s' : PtrMultiListBase α}
    {data : Finmap fun _ : NodeId => α} {body : Cursor → Cursor} (hi : s.cursors.lookup i = none)
    (h₁ : Moves s s₁ (add i c)) (h₂ : Changes s₁ s₂ data body) (h' : Moves s₂ s' (drop i)) :
    Changes s s' data body := by
  refine ⟨h'.data.trans h₂.data, (h'.deleted.trans h₂.deleted).trans h₁.deleted, fun j => ?_⟩
  rw [h'.lookup, h₂.lookup, h₁.lookup, drop, add]
  by_cases hj : j = i
  · rw [if_pos hj, hj, hi]
    rfl
  · rw [if_neg hj, if_neg hj]

theorem extract_spec {t : α} {s₁ : PtrMultiListBase α} (hi : s.cursors.lookup i = none)
    (h₁ : Ok s₁ (da ++ item :: dr)) (hmoves : Moves s s₁ (add i (cursorAt (item :: dr))))
    (ht : s.m_data.lookup item = some t) :
    ∃ s₂ s', s₁.extractElement i = some (some t, s₂) ∧ s₂.destroyIterator i = some s' ∧ Ok s' (da ++ dr) ∧
      Changes s s' (s.m_data.erase item) (eraseCursor item dr.head?) := by
  have hlookup : s₁.cursors.lookup i = some (cursorAt (item :: dr)) := by rw [hmoves.lookup, add, if_pos rfl]
  obtain ⟨s₂, hs₂, hok₂, hchanges₂⟩ := removeNode_spec h₁
  have hcursor₂ : s₂.cursors.lookup i = some (eraseCursor item dr.head? (cursorAt (item :: dr))) := by
    rw [hchanges₂.lookup, hlookup, Option.map_some]
  obtain ⟨s', hs', hok', hmoves'⟩ := destroyIterator_spec hok₂ hcursor₂
  have hdata : s₁.m_data.lookup item = some t := by rw [hmoves.data, ht]
  refine ⟨s₂, s', ?_, hs', hok', ?_⟩
  · rw [WellFormed.extractElement_item hlookup rfl hs₂, hdata]
  · have hchanges := Changes.temporary hi hmoves hchanges₂ hmoves'
    rwa [hmoves.data] at hchanges

theorem extractElement_spec {t : α} (h : Ok s (da ++ item :: dr))
    (hi : s.cursors.lookup i = some (cursorAt (item :: dr))) (ht : s.m_data.lookup item = some t) :
    ∃ s', extractElement A s i = some (t, s') ∧ Ok s' (da ++ dr) ∧
      Changes s s' (s.m_data.erase item) (eraseCursor item dr.head?) := by
  obtain ⟨s₁, hs₁, hok₁, hmoves₁⟩ := copyIterator_spec h (lookup_alloc A s) hi
  obtain ⟨s₂, s', hs₂, hs', hok', hchanges⟩ := extract_spec (lookup_alloc A s) hok₁ hmoves₁ ht
  refine ⟨s', ?_, hok', hchanges⟩
  rw [extractElement, hs₁]
  simp only [Option.bind_eq_bind, Option.bind_some, hs₂, hs']
  rfl

theorem extractFront_spec {t : α} (h : Ok s (item :: dr)) (ht : s.m_data.lookup item = some t) :
    ∃ s', extractFront A s = some (t, s') ∧ Ok s' dr ∧ s'.m_data = s.m_data.erase item ∧ s'.deleted = s.deleted := by
  have hwhole : Ok s ([] ++ item :: dr) := h
  obtain ⟨s₁, hs₁, hok₁, hmoves₁⟩ := newIterator_spec hwhole (lookup_alloc A s)
  obtain ⟨s₂, s', hs₂, hs', hok', hchanges⟩ := extract_spec (lookup_alloc A s) hok₁ hmoves₁ ht
  have hfirst : s.nodes.first = (item :: dr).head? := by
    obtain ⟨its, hwf⟩ := h
    exact hwf.nodes.first_eq
  refine ⟨s', ?_, hok', hchanges.data, hchanges.deleted⟩
  rw [extractFront, PtrMultiListBase.extractFront, PtrMultiListBase.beginIterator, hfirst, hs₁]
  simp only [Option.bind_eq_bind, Option.bind_some, hs₂, hs']
  rfl

/-- What an insertion before an iterator at the nodes `dr` does to iterators. -/
def insertBody (n : NodeId) : List NodeId → Cursor → Cursor
  | [] => id
  | item :: _ => rewriteCursor item n

theorem insertNew_spec (h : Ok s (da ++ dr)) (hi : s.cursors.lookup i = some (cursorAt dr)) (x : α) :
    ∃ result s₁ s', insertNew A s i x = some (result, s₁) ∧ s₁.destroyIterator result = some s' ∧
      Ok s' (da ++ A.alloc s.m_data.keys :: dr) ∧
      Changes s s' (s.m_data.insert (A.alloc s.m_data.keys) x) (insertBody (A.alloc s.m_data.keys) dr) := by
  have hn := A.unused s.m_data.keys
  have hinsert : ∃ s', s.insertAt (cursorAt dr) (A.alloc s.m_data.keys) x = some s' ∧
      Ok s' (da ++ A.alloc s.m_data.keys :: dr) ∧
      Changes s s' (s.m_data.insert (A.alloc s.m_data.keys) x) (insertBody (A.alloc s.m_data.keys) dr) := by
    rcases dr with _ | ⟨item, dr⟩
    · rw [List.append_nil] at h
      exact insertAtEnd_spec h hn x
    · exact insertBefore_spec h hn x
  obtain ⟨s₁, hs₁, hok₁, hchanges₁⟩ := hinsert
  have hresult : s₁.cursors.lookup (A.alloc s.cursors.keys) = none := by
    rw [hchanges₁.lookup, lookup_alloc, Option.map_none]
  obtain ⟨s₂, hs₂, hok₂, hmoves₂⟩ := newIterator_spec hok₁ hresult
  obtain ⟨result, s₃, hs₃, hok₃, hfresh, hmoves₃⟩ := iterator_new_spec (A := A) hresult hok₂ hmoves₂
  have hlookup : s₃.cursors.lookup result = some (cursorAt (A.alloc s.m_data.keys :: dr)) := by
    rw [hmoves₃.lookup, add, if_pos rfl]
  obtain ⟨s', hs', hok', hmoves'⟩ := destroyIterator_spec hok₃ hlookup
  refine ⟨result, s₃, s', ?_, hs', hok', ?_⟩
  · rw [List.head?_cons] at hs₂
    rw [insertNew, PtrMultiListBase.insert, hi]
    simp only [Option.bind_eq_bind, Option.bind_some, hs₁, hs₂]
    exact hs₃
  · refine ⟨(hmoves'.data.trans hmoves₃.data).trans hchanges₁.data,
      (hmoves'.deleted.trans hmoves₃.deleted).trans hchanges₁.deleted, fun j => ?_⟩
    rw [hmoves'.lookup, hmoves₃.lookup, drop, add, ← hchanges₁.lookup]
    by_cases hj : j = result
    · rw [if_pos hj, hj, hfresh]
    · rw [if_neg hj, if_neg hj]

end

/-! ### The loops -/

/-- The list holds the elements `xs`, and `log` has been deleted. -/
def Holds (s : PtrMultiListBase α) (xs : List α) (log : List (Option α)) : Prop :=
  ∃ ids, Ok s ids ∧ dataOf s.m_data ids = xs ∧ s.deleted = log

/-- The iterators of a loop: `i` is behind the nodes `da` and before `dr`, and `e` is `end()`. -/
structure Positioned (s : PtrMultiListBase α) (i e : IterId) (da dr : List NodeId) (log : List (Option α)) : Prop where
  ok : Ok s (da ++ dr)
  cursor : s.cursors.lookup i = some (cursorAt dr)
  finish : s.cursors.lookup e = some ⟨none, none⟩
  ne : i ≠ e
  deleted : s.deleted = log

section
variable {A} {s : PtrMultiListBase α} {i e : IterId} {da dr : List NodeId} {log : List (Option α)}

variable {ids : List NodeId}

theorem Ok.nodup (h : Ok s ids) : ids.Nodup := by
  obtain ⟨its, hwf⟩ := h
  exact hwf.nodes.listed.nodup

theorem Ok.lookup (h : Ok s ids) {x : NodeId} (hx : x ∈ ids) : ∃ t, s.m_data.lookup x = some t := by
  obtain ⟨its, hwf⟩ := h
  exact Container.mem_keys_iff.1 (hwf.mem_keys x hx)

theorem Ok.not_mem (h : Ok s ids) {n : NodeId} (hn : n ∉ s.m_data.keys) : n ∉ ids := by
  obtain ⟨its, hwf⟩ := h
  exact (hwf.newNode_eq hn).2

theorem Ok.length_le (h : Ok s ids) : ids.length ≤ s.m_data.keys.card := by
  obtain ⟨its, hwf⟩ := h
  rw [hwf.nodes.keys, List.toFinset_card_of_nodup hwf.nodes.listed.nodup]

theorem Ok.length_dataOf (h : Ok s ids) : (dataOf s.m_data ids).length = ids.length := by
  obtain ⟨its, hwf⟩ := h
  exact Container.length_dataOf hwf.mem_keys

theorem Positioned.equal_eq (h : Positioned s i e da dr log) : equal s i e = some (decide (dr = [])) := by
  rw [equal, h.cursor, h.finish]
  rcases dr with _ | ⟨x, dr⟩
  · rfl
  · rfl

theorem Positioned.get_eq {x : NodeId} {t : α} (h : Positioned s i e da (x :: dr) log)
    (ht : s.m_data.lookup x = some t) : get s i = some t := by
  rw [get, h.cursor]
  exact ht

theorem Positioned.next {x : NodeId} (h : Positioned s i e da (x :: dr) log) :
    ∃ s', s.nextIterator i = some s' ∧ Positioned s' i e (da ++ [x]) dr log ∧ s'.m_data = s.m_data := by
  have hok : Ok s ((da ++ [x]) ++ dr) := by
    rw [List.append_assoc]
    exact h.ok
  obtain ⟨s', hs', hok', hmoves⟩ := nextIterator_spec hok h.cursor rfl
  refine ⟨s', hs', ⟨hok', ?_, ?_, h.ne, hmoves.deleted.trans h.deleted⟩, hmoves.data⟩
  · rw [hmoves.lookup, add, if_pos rfl]
  · rw [hmoves.lookup, add, if_neg h.ne.symm, h.finish]

theorem Positioned.extract {x : NodeId} {t : α} (h : Positioned s i e da (x :: dr) log)
    (ht : s.m_data.lookup x = some t) :
    ∃ s₁ s', extractElement A s i = some (t, s₁) ∧ s₁.nextIterator i = some s' ∧ Positioned s' i e da dr log ∧
      s'.m_data = s.m_data.erase x := by
  obtain ⟨s₁, hs₁, hok₁, hchanges₁⟩ := extractElement_spec (A := A) h.ok h.cursor ht
  have hcursor : s₁.cursors.lookup i = some ⟨none, dr.head?⟩ := by
    rw [hchanges₁.lookup, h.cursor, Option.map_some, Option.some.injEq]
    exact if_pos rfl
  obtain ⟨s', hs', hok', hmoves⟩ := nextIterator_spec hok₁ hcursor rfl
  refine ⟨s₁, s', hs₁, hs', ⟨hok', ?_, ?_, h.ne, ?_⟩, hmoves.data.trans hchanges₁.data⟩
  · rw [hmoves.lookup, add, if_pos rfl]
  · rw [hmoves.lookup, add, if_neg h.ne.symm, hchanges₁.lookup, h.finish]
    rfl
  · rw [hmoves.deleted, hchanges₁.deleted, h.deleted]

theorem Positioned.insert (h : Positioned s i e da dr log) (x : α) :
    ∃ result s₁ s', insertNew A s i x = some (result, s₁) ∧ s₁.destroyIterator result = some s' ∧
      Positioned s' i e (da ++ [A.alloc s.m_data.keys]) dr log ∧
      s'.m_data = s.m_data.insert (A.alloc s.m_data.keys) x := by
  obtain ⟨result, s₁, s', hs₁, hs', hok, hchanges⟩ := insertNew_spec (A := A) h.ok h.cursor x
  refine ⟨result, s₁, s', hs₁, hs', ⟨?_, ?_, ?_, h.ne, hchanges.deleted.trans h.deleted⟩, hchanges.data⟩
  · rw [List.append_assoc]
    exact hok
  · rw [hchanges.lookup, h.cursor, Option.map_some, Option.some.injEq]
    rcases dr with _ | ⟨y, _ | ⟨z, dr⟩⟩
    · rfl
    · rw [insertBody, rewriteCursor, if_neg]
      simp [cursorAt]
    · have hyz : z ≠ y := by
        have hnodup := (List.nodup_append.1 h.ok.nodup).2.1
        rintro rfl
        simp at hnodup
      rw [insertBody, rewriteCursor, if_neg]
      simp [cursorAt, hyz]
  · rw [hchanges.lookup, h.finish]
    rcases dr with _ | ⟨y, dr⟩
    · rfl
    · rfl

variable {xs : List α}

theorem Holds.begin (h : Holds s xs log) :
    ∃ i e s₁ s' ids, beginIterator A s = some (i, s₁) ∧ endIterator A s₁ = some (e, s') ∧
      Positioned s' i e [] ids log ∧ s'.m_data = s.m_data ∧ dataOf s.m_data ids = xs := by
  obtain ⟨ids, hok, hdata, hlog⟩ := h
  obtain ⟨i, s₁, hs₁, hok₁, -, hmoves₁⟩ := beginIterator_spec (A := A) hok
  obtain ⟨e, s', hs', hok', he, hmoves'⟩ := endIterator_spec (A := A) hok₁
  have hi : s₁.cursors.lookup i = some (cursorAt ids) := by rw [hmoves₁.lookup, add, if_pos rfl]
  have hne : i ≠ e := by
    rintro rfl
    rw [hi] at he
    cases he
  refine ⟨i, e, s₁, s', ids, hs₁, hs', ⟨hok', ?_, ?_, hne, ?_⟩, hmoves'.data.trans hmoves₁.data, hdata⟩
  · rw [hmoves'.lookup, add, if_neg hne, hi]
  · rw [hmoves'.lookup, add, if_pos rfl]
  · rw [hmoves'.deleted, hmoves₁.deleted, hlog]

theorem Positioned.leave (h : Positioned s i e da dr log) :
    ∃ s₁ s', s.destroyIterator e = some s₁ ∧ s₁.destroyIterator i = some s' ∧
      Holds s' (dataOf s.m_data (da ++ dr)) log := by
  obtain ⟨s₁, hs₁, hok₁, hmoves₁⟩ := destroyIterator_spec h.ok h.finish
  have hi : s₁.cursors.lookup i = some (cursorAt dr) := by rw [hmoves₁.lookup, drop, if_neg h.ne, h.cursor]
  obtain ⟨s', hs', hok', hmoves'⟩ := destroyIterator_spec hok₁ hi
  refine ⟨s₁, s', hs₁, hs', da ++ dr, hok', ?_, ?_⟩
  · rw [hmoves'.data, hmoves₁.data]
  · rw [hmoves'.deleted, hmoves₁.deleted, h.deleted]

/-! ### Merging -/

variable {p}

/-- The result of merging two lists, of which the first is the one that `merge` is called for. -/
def mergeLists (p : α → α → Bool) (xs ys : List α) : List α := ys.merge xs fun y x => !p x y

theorem mergeLists_cons (p : α → α → Bool) (xs : List α) (y : α) (ys : List α) :
    mergeLists p xs (y :: ys) = xs.takeWhile (p · y) ++ y :: mergeLists p (xs.dropWhile (p · y)) ys := by
  rw [mergeLists, mergeLists]
  induction xs with
  | nil => rw [List.merge_right, List.takeWhile_nil, List.dropWhile_nil, List.merge_right, List.nil_append]
  | cons x xs ih =>
    rw [List.cons_merge_cons, List.takeWhile_cons, List.dropWhile_cons]
    rcases p x y with _ | _
    · rfl
    · show x :: List.merge (y :: ys) xs _ = x :: _
      rw [ih]
      rfl

theorem skipLoop_spec (elem : α) {fuel : Nat} (h : Positioned s i e da dr log) (hfuel : dr.length < fuel) :
    ∃ s' d d', skipLoop p i e elem fuel s = some s' ∧ dr = d ++ d' ∧ Positioned s' i e (da ++ d) d' log ∧
      s'.m_data = s.m_data ∧ dataOf s.m_data d = (dataOf s.m_data dr).takeWhile (p · elem) ∧
      dataOf s.m_data d' = (dataOf s.m_data dr).dropWhile (p · elem) := by
  induction fuel generalizing s da dr with
  | zero => exact absurd hfuel (Nat.not_lt_zero _)
  | succ fuel ih =>
    rw [skipLoop, h.equal_eq, Option.bind_eq_bind, Option.bind_some]
    rcases dr with _ | ⟨x, dr⟩
    · refine ⟨s, [], [], rfl, rfl, ?_, rfl, rfl, rfl⟩
      rw [List.append_nil]
      exact h
    · obtain ⟨t, ht⟩ := h.ok.lookup (List.mem_append_right da List.mem_cons_self)
      rw [if_neg (by simp), h.get_eq ht, Option.bind_eq_bind, Option.bind_some, dataOf_cons ht]
      rcases hp : p t elem with _ | _
      · refine ⟨s, [], x :: dr, rfl, rfl, ?_, rfl, ?_, ?_⟩
        · rw [List.append_nil]
          exact h
        · rw [List.takeWhile_cons_of_neg (by rw [hp]; decide)]
          rfl
        · rw [List.dropWhile_cons_of_neg (by rw [hp]; decide), dataOf_cons ht]
      · obtain ⟨s₁, hs₁, hpositioned₁, hdata₁⟩ := h.next
        obtain ⟨s', d, d', hs', rfl, hpositioned, hdata, htake, hdrop⟩ :=
          ih hpositioned₁ (Nat.lt_of_succ_lt_succ hfuel)
        rw [hdata₁] at hdata htake hdrop
        refine ⟨s', x :: d, d', ?_, rfl, ?_, hdata, ?_, ?_⟩
        · rw [if_pos rfl, hs₁]
          exact hs'
        · rw [List.append_assoc] at hpositioned
          exact hpositioned
        · rw [List.takeWhile_cons, if_pos hp, dataOf_cons ht, htake]
        · rw [List.dropWhile_cons, if_pos hp, hdrop]

theorem Holds.extractFront {y : α} {ys : List α} (h : Holds s (y :: ys) log) :
    s.nodes.first ≠ none ∧ ∃ s', extractFront A s = some (y, s') ∧ Holds s' ys log := by
  obtain ⟨ids, hok, hdata, hlog⟩ := h
  rcases ids with _ | ⟨x, ids⟩
  · cases hdata
  · obtain ⟨t, ht⟩ := hok.lookup List.mem_cons_self
    rw [dataOf_cons ht] at hdata
    obtain ⟨rfl, hys⟩ := List.cons.inj hdata
    obtain ⟨s', hs', hok', hdata', hlog'⟩ := extractFront_spec (A := A) hok ht
    refine ⟨?_, s', hs', ids, hok', ?_, hlog'.trans hlog⟩
    · obtain ⟨its, hwf⟩ := hok
      rw [hwf.nodes.first_eq]
      exact Option.some_ne_none x
    · rw [hdata', dataOf_erase (List.nodup_cons.1 hok.nodup).1, hys]

theorem Holds.first_nil (h : Holds s [] log) : s.nodes.first = none := by
  obtain ⟨ids, ⟨its, hwf⟩, hdata, -⟩ := h
  have hlength := Ok.length_dataOf ⟨its, hwf⟩
  rw [hdata] at hlength
  rw [hwf.nodes.first_eq, List.length_eq_zero_iff.1 hlength.symm]
  rfl

theorem Holds.elements_eq (h : Holds s xs log) : s.elements = xs := by
  obtain ⟨ids, ⟨its, hwf⟩, hdata, -⟩ := h
  rw [hwf.elements_eq, hdata]

theorem Holds.length_le (h : Holds s xs log) : xs.length ≤ s.m_data.keys.card := by
  obtain ⟨ids, hok, rfl, -⟩ := h
  rw [hok.length_dataOf]
  exact hok.length_le

variable {log' : List (Option α)}

theorem mergeLoop_spec {other : PtrMultiListBase α} {ys : List α} {fuel : Nat}
    (h : Positioned s i e da dr log) (hother : Holds other ys log') (hfuel : ys.length < fuel) :
    ∃ s' other' da' dr', mergeLoop A p i e fuel s other = some (s', other') ∧ Positioned s' i e da' dr' log ∧
      Holds other' [] log' ∧
      dataOf s'.m_data (da' ++ dr') = dataOf s.m_data da ++ mergeLists p (dataOf s.m_data dr) ys := by
  induction ys generalizing s other da dr fuel with
  | nil =>
    obtain ⟨fuel, rfl⟩ := Nat.exists_eq_succ_of_ne_zero (Nat.ne_of_gt hfuel)
    refine ⟨s, other, da, dr, ?_, h, hother, ?_⟩
    · rw [mergeLoop, if_pos hother.first_nil]
    · rw [dataOf_append, mergeLists, List.nil_merge]
  | cons y ys ih =>
    obtain ⟨fuel, rfl⟩ := Nat.exists_eq_succ_of_ne_zero (Nat.ne_zero_of_lt hfuel)
    obtain ⟨hfirst, other₁, hother₁, hholds₁⟩ := hother.extractFront (A := A)
    have hlength : dr.length < s.m_data.keys.card + 1 := by
      have hle := h.ok.length_le
      rw [List.length_append] at hle
      omega
    obtain ⟨s₁, d, d', hs₁, rfl, hpositioned₁, hdata₁, htake, hdrop⟩ := skipLoop_spec (p := p) y h hlength
    obtain ⟨result, s₂, s₃, hs₂, hs₃, hpositioned₃, hdata₃⟩ := hpositioned₁.insert (A := A) y
    obtain ⟨s', other', da', dr', hs', hpositioned, hholds, hdata⟩ :=
      ih hpositioned₃ hholds₁ (Nat.lt_of_succ_lt_succ hfuel)
    have hn := hpositioned₁.ok.not_mem (A.unused s₁.m_data.keys)
    have hna : A.alloc s₁.m_data.keys ∉ da ++ d := fun hmem => hn (List.mem_append_left d' hmem)
    have hnd : A.alloc s₁.m_data.keys ∉ d' := fun hmem => hn (List.mem_append_right (da ++ d) hmem)
    refine ⟨s', other', da', dr', ?_, hpositioned, hholds, ?_⟩
    · rw [mergeLoop, if_neg hfirst, hother₁]
      simp only [Option.bind_eq_bind, Option.bind_some, hs₁, hs₂, hs₃]
      exact hs'
    · rw [hdata, hdata₃, dataOf_append, dataOf_insert hna, dataOf_insert hnd, dataOf_cons (Finmap.lookup_insert _),
        hdata₁, dataOf_append, htake, hdrop, mergeLists_cons]
      simp [dataOf]

theorem Holds.merge {other : PtrMultiListBase α} {xs ys : List α} (h : Holds s xs log) (hother : Holds other ys log') :
    ∃ s' other', merge A p s other = some (s', other') ∧ Holds s' (mergeLists p xs ys) log ∧ Holds other' [] log' := by
  obtain ⟨i, e, s₁, s₂, ids, hs₁, hs₂, hpositioned₂, hdata₂, hdata⟩ := h.begin (A := A)
  obtain ⟨s₃, other', da, dr, hs₃, hpositioned₃, hholds, hdata₃⟩ :=
    mergeLoop_spec (A := A) (p := p) hpositioned₂ hother (Nat.lt_succ_of_le hother.length_le)
  obtain ⟨s₄, s', hs₄, hs', hholds'⟩ := hpositioned₃.leave
  refine ⟨s', other', ?_, ?_, hholds⟩
  · rw [PtrMultiList.merge, hs₁]
    simp only [Option.bind_eq_bind, Option.bind_some, hs₂, hs₃, hs₄, hs']
    rfl
  · rw [hdata₃, hdata₂, hdata] at hholds'
    exact hholds'

/-! ### Sorting -/

/-- Every other element: what stays in the list, and what is moved. -/
def deal : List α → List α × List α
  | [] => ([], [])
  | x :: xs => (x :: (deal xs).2, (deal xs).1)

theorem deal_perm (xs : List α) : ((deal xs).1 ++ (deal xs).2).Perm xs := by
  induction xs with
  | nil => exact .nil
  | cons x xs ih => exact (List.perm_append_comm.trans ih).cons x

theorem deal_length (xs : List α) :
    (deal xs).1.length = (xs.length + 1) / 2 ∧ (deal xs).2.length = xs.length / 2 := by
  induction xs with
  | nil =>
    rw [deal, List.length_nil]
    exact ⟨by decide, by decide⟩
  | cons x xs ih =>
    rw [deal, List.length_cons, List.length_cons, ih.1, ih.2]
    omega

/-- The part of `deal` that stays if the first element is at the position `n`. -/
def stays (n : Nat) (xs : List α) : List α := if n &&& 1 ≠ 0 then (deal xs).2 else (deal xs).1

def moves (n : Nat) (xs : List α) : List α := if n &&& 1 ≠ 0 then (deal xs).1 else (deal xs).2

theorem succ_odd_iff (n : Nat) : (n + 1) &&& 1 ≠ 0 ↔ ¬n &&& 1 ≠ 0 := by
  rw [Nat.and_one_is_mod, Nat.and_one_is_mod]
  omega

theorem Holds.pushBackNew (h : Holds s xs log) (t : α) :
    ∃ s', pushBackNew A s t = some s' ∧ Holds s' (xs ++ [t]) log := by
  obtain ⟨ids, hok, hdata, hlog⟩ := h
  have hn := A.unused s.m_data.keys
  obtain ⟨s', hs', hok', hchanges⟩ := insertAtEnd_spec hok hn t
  refine ⟨s', hs', _, hok', ?_, hchanges.deleted.trans hlog⟩
  rw [hchanges.data, dataOf_append, dataOf_insert (hok.not_mem hn), dataOf_cons (Finmap.lookup_insert _), hdata]
  rfl

theorem splitLoop_spec {tmp : PtrMultiListBase α} {zs : List α} {fuel : Nat} (n : Nat)
    (h : Positioned s i e da dr log) (htmp : Holds tmp zs log') (hfuel : dr.length < fuel) :
    ∃ s' tmp' da', splitLoop A i e fuel n s tmp = some (n + dr.length, s', tmp') ∧ Positioned s' i e da' [] log ∧
      Holds tmp' (zs ++ moves n (dataOf s.m_data dr)) log' ∧
      dataOf s'.m_data da' = dataOf s.m_data da ++ stays n (dataOf s.m_data dr) := by
  induction dr generalizing s tmp da zs fuel n with
  | nil =>
    obtain ⟨fuel, rfl⟩ := Nat.exists_eq_succ_of_ne_zero (Nat.ne_of_gt hfuel)
    have hnil : dataOf s.m_data [] = [] := rfl
    refine ⟨s, tmp, da, ?_, h, ?_, ?_⟩
    · rw [splitLoop, h.equal_eq]
      rfl
    · rw [hnil, moves, deal, ite_self, List.append_nil]
      exact htmp
    · rw [hnil, stays, deal, ite_self, List.append_nil]
  | cons x dr ih =>
    obtain ⟨fuel, rfl⟩ := Nat.exists_eq_succ_of_ne_zero (Nat.ne_zero_of_lt hfuel)
    obtain ⟨t, ht⟩ := h.ok.lookup (List.mem_append_right da List.mem_cons_self)
    have hlength : n + 1 + dr.length = n + (x :: dr).length := by
      rw [List.length_cons]
      omega
    have hfuel' : dr.length < fuel := Nat.lt_of_succ_lt_succ hfuel
    rw [splitLoop, h.equal_eq, Option.bind_eq_bind, Option.bind_some, if_neg (by simp), dataOf_cons ht, moves, stays,
      deal, moveOther]
    by_cases hodd : n &&& 1 ≠ 0
    · obtain ⟨s₁, s₂, hs₁, hs₂, hpositioned₂, hdata₂⟩ := h.extract (A := A) ht
      obtain ⟨tmp₁, htmp₁, hholds₁⟩ := htmp.pushBackNew (A := A) t
      have hx := h.ok.nodup
      rw [List.nodup_middle, List.nodup_cons, List.mem_append, not_or] at hx
      obtain ⟨s', tmp', da', hs', hpositioned, hholds, hdata⟩ := ih (n + 1) hpositioned₂ hholds₁ hfuel'
      rw [moves, if_neg ((succ_odd_iff n).not.2 (not_not.2 hodd)), hdata₂, dataOf_erase hx.1.2] at hholds
      rw [stays, if_neg ((succ_odd_iff n).not.2 (not_not.2 hodd)), hdata₂, dataOf_erase hx.1.2, dataOf_erase hx.1.1]
        at hdata
      rw [if_pos hodd, if_pos hodd, if_pos hodd, ← hlength]
      refine ⟨s', tmp', da', ?_, hpositioned, ?_, hdata⟩
      · simp only [Option.bind_eq_bind, Option.bind_some, hs₁, htmp₁, Option.pure_def, hs₂]
        exact hs'
      · rw [List.append_assoc] at hholds
        exact hholds
    · obtain ⟨s₂, hs₂, hpositioned₂, hdata₂⟩ := h.next
      obtain ⟨s', tmp', da', hs', hpositioned, hholds, hdata⟩ := ih (n + 1) hpositioned₂ htmp hfuel'
      rw [moves, if_pos ((succ_odd_iff n).2 hodd), hdata₂] at hholds
      rw [stays, if_pos ((succ_odd_iff n).2 hodd), hdata₂, dataOf_append, dataOf_cons ht, List.append_assoc] at hdata
      rw [if_neg hodd, if_neg hodd, if_neg hodd, ← hlength]
      refine ⟨s', tmp', da', ?_, hpositioned, hholds, hdata⟩
      simp only [Option.bind_eq_bind, Option.bind_some, hs₂]
      exact hs'

theorem Holds.split {tmp : PtrMultiListBase α} (h : Holds s xs log) (htmp : Holds tmp [] log') :
    ∃ s' tmp', split A s tmp = some (xs.length, s', tmp') ∧ Holds s' (deal xs).1 log ∧ Holds tmp' (deal xs).2 log' := by
  obtain ⟨i, e, s₁, s₂, ids, hs₁, hs₂, hpositioned₂, hdata₂, hdata⟩ := h.begin (A := A)
  have hfuel : ids.length < s₂.m_data.keys.card + 1 := Nat.lt_succ_of_le hpositioned₂.ok.length_le
  obtain ⟨s₃, tmp', da, hs₃, hpositioned₃, hholds, hdata₃⟩ := splitLoop_spec (A := A) 0 hpositioned₂ htmp hfuel
  obtain ⟨s₄, s', hs₄, hs', hholds'⟩ := hpositioned₃.leave
  have hlength := hpositioned₂.ok.length_dataOf
  rw [List.nil_append, hdata₂, hdata] at hlength
  rw [hdata₂, hdata] at hholds hdata₃
  rw [List.append_nil, hdata₃] at hholds'
  refine ⟨s', tmp', ?_, hholds', hholds⟩
  rw [PtrMultiList.split, hs₁]
  simp only [Option.bind_eq_bind, Option.bind_some, hs₂, hs₃, hs₄, hs']
  rw [Nat.zero_add, ← hlength]
  rfl

theorem holds_new : Holds (PtrMultiListBase.new : PtrMultiListBase α) [] [] := by
  obtain ⟨s, ids, its, hs, hwf, helements⟩ := runInv_new α
  cases hs
  refine ⟨ids, ⟨its, hwf⟩, ?_, rfl⟩
  rw [← hwf.elements_eq]
  exact helements

theorem deleted_invalidateLoop {s' : PtrMultiListBase α} {fuel : Nat} (h : invalidateLoop fuel s = some s') :
    s'.deleted = s.deleted := by
  induction fuel generalizing s with
  | zero =>
    unfold invalidateLoop at h
    rcases hfirst : s.iterators.first with _ | i
    · rw [hfirst] at h
      rw [← Option.some.inj h]
    · rw [hfirst] at h
      cases h
  | succ fuel ih =>
    unfold invalidateLoop at h
    rcases hfirst : s.iterators.first with _ | i
    · rw [hfirst] at h
      rw [← Option.some.inj h]
    · rw [hfirst] at h
      obtain ⟨s₁, hs₁, hs'⟩ := Option.bind_eq_some_iff.1 h
      obtain ⟨-, -, hs₁⟩ := Option.bind_eq_some_iff.1 hs₁
      rw [ih hs', ← Option.some.inj hs₁]

theorem Holds.clear (h : Holds s [] log) (tmp : IterId) : ∃ s', s.clear tmp = some s' ∧ s'.deleted = log := by
  have hnil := h.first_nil
  obtain ⟨ids, ⟨its, hwf⟩, -, hlog⟩ := h
  obtain ⟨s₁, hs₁, hnodes, hrest⟩ := hwf.invalidateAllIterators
  refine ⟨s₁, ?_, (deleted_invalidateLoop hs₁).trans hlog⟩
  unfold PtrMultiListBase.clear
  rw [hs₁, Option.bind_eq_bind, Option.bind_some]
  unfold clearLoop
  rw [hnodes, hnil]

/-- The elements are in non-descending order: none is before an earlier one. -/
def Sorted (p : α → α → Bool) (xs : List α) : Prop := xs.Pairwise fun x y => p y x = false

theorem mergeLists_perm (p : α → α → Bool) (xs ys : List α) : (mergeLists p xs ys).Perm (xs ++ ys) :=
  (List.merge_perm_append _).trans List.perm_append_comm

theorem not_before_trans [h : IsStrictWeakOrder α (p · ·)] {x y z : α} (hyx : p y x = false) (hzy : p z y = false) :
    p z x = false := by
  rw [← Bool.not_eq_true] at hyx hzy ⊢
  intro hzx
  have hxy : ¬p x y = true := fun hxy => hzy (h.trans z x y hzx hxy)
  have hyz : ¬p y z = true := fun hyz => hyx (h.trans y z x hyz hzx)
  exact (h.incomp_trans x y z ⟨hxy, hyx⟩ ⟨hyz, hzy⟩).2 hzx

theorem not_before_total [h : IsStrictWeakOrder α (p · ·)] (x y : α) : p y x = false ∨ p x y = false := by
  rw [← Bool.not_eq_true, ← Bool.not_eq_true, ← not_and_or]
  exact fun hboth => h.irrefl y (h.trans y x y hboth.1 hboth.2)

theorem sorted_mergeLists [h : IsStrictWeakOrder α (p · ·)] {xs ys : List α} (hxs : Sorted p xs) (hys : Sorted p ys) :
    Sorted p (mergeLists p xs ys) := by
  have hle : ∀ {l : List α}, Sorted p l ↔ l.Pairwise fun x y => !p y x := by
    intro l
    rw [Sorted]
    simp only [Bool.not_eq_true']
  rw [hle] at hxs hys ⊢
  apply List.pairwise_merge
  · intro x y z hxy hyz
    rw [Bool.not_eq_true'] at hxy hyz ⊢
    exact not_before_trans hxy hyz
  · intro x y
    rw [Bool.or_eq_true, Bool.not_eq_true', Bool.not_eq_true']
    exact not_before_total x y
  · exact hys
  · exact hxs

theorem sortDepth_spec {depth : Nat} (h : Holds s xs log) (hdepth : xs.length < depth) :
    ∃ s' ys, sortDepth A p depth s = some s' ∧ Holds s' ys log ∧ ys.Perm xs ∧
      (IsStrictWeakOrder α (p · ·) → Sorted p ys) := by
  induction depth generalizing s xs log with
  | zero => exact absurd hdepth (Nat.not_lt_zero _)
  | succ depth ih =>
    obtain ⟨s₁, tmp₁, hs₁, hholds₁, htmp₁⟩ := h.split (A := A) holds_new
    have hlength := deal_length xs
    -- the two parts, which are sorted if they have more than one element
    have hparts : ∃ s₂ tmp₂ as bs, (if xs.length > 2 then sortDepth A p depth tmp₁ else some tmp₁) = some tmp₂ ∧
        (if xs.length > 2 then sortDepth A p depth s₁ else some s₁) = some s₂ ∧ Holds s₂ as log ∧ Holds tmp₂ bs [] ∧
        as.Perm (deal xs).1 ∧ bs.Perm (deal xs).2 ∧
        (IsStrictWeakOrder α (p · ·) → Sorted p as ∧ Sorted p bs) := by
      split_ifs with hlarge
      · obtain ⟨tmp₂, bs, htmp₂, hbs, hperm₂, hsorted₂⟩ := ih htmp₁ (by omega)
        obtain ⟨s₂, as, hs₂, has, hperm₁, hsorted₁⟩ := ih hholds₁ (by omega)
        exact ⟨s₂, tmp₂, as, bs, htmp₂, hs₂, has, hbs, hperm₁, hperm₂, fun hp => ⟨hsorted₁ hp, hsorted₂ hp⟩⟩
      · have hshort : ∀ {l : List α}, l.length ≤ 1 → Sorted p l := by
          intro l hl
          rcases l with _ | ⟨x, _ | ⟨y, l⟩⟩
          · exact .nil
          · exact List.pairwise_singleton _ x
          · simp at hl
        exact ⟨s₁, tmp₁, _, _, rfl, rfl, hholds₁, htmp₁, .rfl, .rfl,
          fun _ => ⟨hshort (by omega), hshort (by omega)⟩⟩
    obtain ⟨s₂, tmp₂, as, bs, htmp₂, hs₂, has, hbs, hperm₁, hperm₂, hsorted⟩ := hparts
    obtain ⟨s₃, tmp₃, hs₃, hholds₃, htmp₃⟩ := has.merge (A := A) (p := p) hbs
    obtain ⟨tmp₄, htmp₄, hdeleted⟩ := htmp₃.clear (A.alloc tmp₃.cursors.keys)
    refine ⟨{ s₃ with deleted := s₃.deleted ++ tmp₄.deleted }, mergeLists p as bs, ?_, ?_, ?_, fun hp => ?_⟩
    · rw [sortDepth, hs₁]
      by_cases hlarge : xs.length > 2
      · rw [if_pos hlarge] at htmp₂ hs₂
        simp only [Option.bind_eq_bind, Option.bind_some, Option.pure_def, if_pos hlarge, htmp₂, hs₂, hs₃, htmp₄]
      · rw [if_neg hlarge, Option.some.injEq] at htmp₂ hs₂
        simp only [Option.bind_eq_bind, Option.bind_some, Option.pure_def, if_neg hlarge, htmp₂, hs₂, hs₃, htmp₄]
    · obtain ⟨ids, ⟨its, hwf⟩, hdata, hlog⟩ := hholds₃
      refine ⟨ids, ⟨its, hwf.nodes.of_eq rfl rfl rfl, hwf.iterators, hwf.cursors⟩, hdata, ?_⟩
      rw [hdeleted, List.append_nil, hlog]
    · exact (mergeLists_perm p as bs).trans ((hperm₁.append hperm₂).trans (deal_perm xs))
    · exact sorted_mergeLists (hsorted hp).1 (hsorted hp).2

theorem Holds.sort (h : Holds s xs log) :
    ∃ s' ys, sort A p s = some s' ∧ Holds s' ys log ∧ ys.Perm xs ∧ (IsStrictWeakOrder α (p · ·) → Sorted p ys) :=
  sortDepth_spec h (Nat.lt_succ_of_le h.length_le)

end

/-! ### Runs -/

theorem Built.holds {A : Allocator} {s : PtrMultiListBase α} (h : Built A s) : Holds s s.elements [] := by
  have helements : ∀ {t : PtrMultiListBase α} {xs : List α}, Holds t xs [] → Holds t t.elements [] := by
    intro t xs ht
    rw [ht.elements_eq]
    exact ht
  induction h with
  | new => exact helements holds_new
  | pushBackNew t hs hs' ih =>
    obtain ⟨s₁, hs₁, hholds⟩ := ih.pushBackNew (A := A) t
    cases hs'.symm.trans hs₁
    exact helements hholds
  | sort p hs hs' ih =>
    obtain ⟨s₁, ys, hs₁, hholds, -⟩ := ih.sort (A := A) (p := p)
    cases hs'.symm.trans hs₁
    exact helements hholds
  | merge p hs hother hs' ih ihother =>
    obtain ⟨s₁, other₁, hs₁, hholds, -⟩ := ih.merge (A := A) (p := p) ihother
    cases hs'.symm.trans hs₁
    exact helements hholds
  | other p hs hother hs' ih ihother =>
    obtain ⟨s₁, other₁, hs₁, -, hholds⟩ := ih.merge (A := A) (p := p) ihother
    cases hs'.symm.trans hs₁
    exact helements hholds

/-- **Sorting and merging** of lists that have been made by appending, sorting and merging: they end, and the result is
in order and has the elements of the lists; nothing is deleted. -/
theorem sort_merge (A : Allocator) (p : α → α → Bool) [hp : IsStrictWeakOrder α (p · ·)] :
    (∀ s : PtrMultiListBase α, Built A s → ∃ s', sort A p s = some s' ∧ s'.elements.Perm s.elements ∧
      Sorted p s'.elements ∧ s'.deleted = s.deleted) ∧
    ∀ s other : PtrMultiListBase α, Built A s → Built A other → Sorted p s.elements → Sorted p other.elements →
      ∃ s' other', merge A p s other = some (s', other') ∧ s'.elements.Perm (s.elements ++ other.elements) ∧
        Sorted p s'.elements ∧ other'.elements = [] ∧ s'.deleted = s.deleted ∧ other'.deleted = other.deleted := by
  have hdeleted : ∀ {t : PtrMultiListBase α} {xs : List α} {log : List (Option α)}, Holds t xs log → t.deleted = log := by
    intro t xs log ⟨ids, hok, hdata, hlog⟩
    exact hlog
  constructor
  · intro s hs
    obtain ⟨s', ys, hs', hholds, hperm, hsorted⟩ := hs.holds.sort (A := A) (p := p)
    refine ⟨s', hs', ?_, ?_, (hdeleted hholds).trans (hdeleted hs.holds).symm⟩
    · rw [hholds.elements_eq]
      exact hperm
    · rw [hholds.elements_eq]
      exact hsorted hp
  · intro s other hs hother hsorted hsorted'
    obtain ⟨s', other', hs', hholds, hholds'⟩ := hs.holds.merge (A := A) (p := p) hother.holds
    refine ⟨s', other', hs', ?_, ?_, hholds'.elements_eq, (hdeleted hholds).trans (hdeleted hs.holds).symm,
      (hdeleted hholds').trans (hdeleted hother.holds).symm⟩
    · rw [hholds.elements_eq]
      exact mergeLists_perm p _ _
    · rw [hholds.elements_eq]
      exact sorted_mergeLists hsorted hsorted'

def above : Allocator where
  alloc used := used.sup id + 1
  unused _ h := absurd (Finset.le_sup (f := id) h) (Nat.not_succ_le_self _)

theorem sort_merge_less :
    ∃ s one other : PtrMultiListBase Nat, s.elements = [2, 1] ∧ one.elements = [2] ∧ other.elements = [1] ∧
      (∃ s', sort above (fun x y => decide (x < y)) s = some s' ∧ s'.elements.Perm [2, 1] ∧
        Sorted (fun x y => decide (x < y)) s'.elements ∧ s'.deleted = s.deleted) ∧
      ∃ s' other', merge above (fun x y => decide (x < y)) one other = some (s', other') ∧
        s'.elements.Perm ([2] ++ [1]) ∧ Sorted (fun x y => decide (x < y)) s'.elements ∧ other'.elements = [] ∧
        s'.deleted = one.deleted ∧ other'.deleted = other.deleted := by
  have hp : IsStrictWeakOrder Nat fun x y => decide (x < y) = true := by
    refine { irrefl := fun x => by simp, trans := fun x y z => ?_, incomp_trans := fun x y z => ?_ }
    · simp only [decide_eq_true_eq]
      omega
    · simp only [decide_eq_true_eq]
      omega
  obtain ⟨one, hone, hholds₁⟩ := holds_new.pushBackNew (A := above) 2
  obtain ⟨s, hs, hholds⟩ := hholds₁.pushBackNew (A := above) 1
  obtain ⟨other, hother, hholds₂⟩ := holds_new.pushBackNew (A := above) 1
  have hbuilt₁ : Built above one := .pushBackNew 2 .new hone
  have hbuilt : Built above s := .pushBackNew 1 hbuilt₁ hs
  have hbuilt₂ : Built above other := .pushBackNew 1 .new hother
  have hone' : one.elements = [2] := hholds₁.elements_eq
  have hother' : other.elements = [1] := hholds₂.elements_eq
  have hs' : s.elements = [2, 1] := hholds.elements_eq
  have hsorted : ∀ x : Nat, Sorted (fun x y => decide (x < y)) [x] := List.pairwise_singleton _
  have hsort := (sort_merge above (fun x y => decide (x < y))).1 s hbuilt
  have hmerge := (sort_merge above (fun x y => decide (x < y))).2 one other hbuilt₁ hbuilt₂ (hone' ▸ hsorted 2)
    (hother' ▸ hsorted 1)
  rw [hs'] at hsort
  rw [hone', hother'] at hmerge
  exact ⟨s, one, other, hs', hone', hother', hsort, hmerge⟩

example : (do
    let s ← pushBackNew above PtrMultiListBase.new 3
    let s ← pushBackNew above s 1
    let s ← pushBackNew above s 2
    let s ← sort above (fun x y => decide (x < y)) s
    pure s.elements) = some [1, 2, 3] := by decide

end PtrMultiList

end Afl.Container
