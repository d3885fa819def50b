import Afl.Container.Nodes
import Afl.Lib.Run

/-!
# `PtrMultiListBase` as a sequence

The abstract model is a list of elements; `seqOp` says which list operation each operation stands for, with an iterator
read as the position of its node. Every operation carries out its list operation and keeps the links consistent, except
that `pushFrontNew` on a non-empty list leaves the old first node with a pointer to the pointer at the new one.
-/

namespace Afl.Container

open Intrusive

/-- The operations on an ordinary list. -/
inductive SeqOp (α : Type)
  | keep
  | pushBack (x : α)
  | pushFront (x : α)
  | insert (p : Nat) (x : α)
  | erase (p : Nat)
  | swap (p q : Nat)
  | clear

def SeqOp.apply {α : Type} : SeqOp α → List α → List α
  | keep, l => l
  | pushBack x, l => l ++ [x]
  | pushFront x, l => x :: l
  | insert p x, l => l.insertIdx p x
  | erase p, l => l.eraseIdx p
  | swap p q, l =>
    match l[p]?, l[q]? with
    | some x, some y => (l.set p y).set q x
    | _, _ => l
  | clear, _ => []

namespace PtrMultiListBase

variable {α : Type}

/-- The position before which `insert` inserts. -/
def position (s : PtrMultiListBase α) (c : Cursor) : Nat :=
  match c.m_item, c.m_nextItem with
  | none, none => s.walk.length
  | none, some nextItem => s.walk.idxOf nextItem
  | some item, _ => s.walk.idxOf item

/-- The item of the iterator at the address `i`. -/
def itemOf (s : PtrMultiListBase α) (i : IterId) : Option NodeId := (s.cursors.lookup i).bind (·.m_item)

def eraseOp (s : PtrMultiListBase α) : Option NodeId → SeqOp α
  | none => .keep
  | some item => .erase (s.walk.idxOf item)

def seqOp (s : PtrMultiListBase α) : Op α → SeqOp α
  | .pushBackNew _ data => .pushBack data
  | .pushFrontNew _ data => .pushFront data
  | .insert iter _ _ data =>
    match s.cursors.lookup iter with
    | none => .keep
    | some c => .insert (s.position c) data
  | .erase iter | .extractElement iter => s.eraseOp (s.itemOf iter)
  | .swapElements a b =>
    match s.itemOf a, s.itemOf b with
    | some x, some y => .swap (s.walk.idxOf x) (s.walk.idxOf y)
    | _, _ => .keep
  | .extractFront _ => .erase 0
  | .clear _ => .clear
  | .beginIterator _ | .endIterator _ | .copyIterator _ _ | .assignIterator _ _ | .nextIterator _ | .invalidate _
  | .destroyIterator _ | .invalidateAllIterators => .keep

/-- The contract of the operations: new objects have unused addresses, iterators exist, and `swapElements` gets
iterators that point at elements. -/
def Valid (s : PtrMultiListBase α) : Op α → Prop
  | .pushBackNew n _ | .pushFrontNew n _ => n ∉ s.m_data.keys
  | .insert iter n result _ => iter ∈ s.cursors.keys ∧ n ∉ s.m_data.keys ∧ result ∉ s.cursors.keys
  | .erase iter | .extractElement iter => iter ∈ s.cursors.keys
  | .swapElements a b => s.itemOf a ≠ none ∧ s.itemOf b ≠ none
  | .extractFront tmp | .clear tmp => tmp ∉ s.cursors.keys
  | .beginIterator i | .endIterator i => i ∉ s.cursors.keys
  | .copyIterator i other => i ∉ s.cursors.keys ∧ other ∈ s.cursors.keys
  | .assignIterator i other => i ∈ s.cursors.keys ∧ other ∈ s.cursors.keys
  | .nextIterator i | .invalidate i | .destroyIterator i => i ∈ s.cursors.keys
  | .invalidateAllIterators => True

instance (s : PtrMultiListBase α) (op : Op α) : Decidable (s.Valid op) := by
  cases op <;> unfold Valid <;> infer_instance

/-- The operation is `pushFrontNew` on a list that is not empty. -/
def PushesBeforeFirst (s : PtrMultiListBase α) : Op α → Prop
  | .pushFrontNew _ _ => s.nodes.first ≠ none
  | _ => False

/-- The list next to the ordinary list that went through the same operations. There is no list any more where the
source has undefined behaviour or does not return. -/
structure Machine (α : Type) where
  list : Option (PtrMultiListBase α)
  sequence : List α

/-- One operation of a caller that keeps to the contract. -/
def step (m : Machine α) (op : Op α) : Option (Machine α) :=
  match m.list with
  | none => none
  | some s => if s.Valid op then some ⟨s.exec op, (s.seqOp op).apply m.sequence⟩ else none

/-- The list holds the sequence, and its links are consistent. -/
def Refines (m : Machine α) : Prop :=
  ∃ s, m.list = some s ∧ s.elements = m.sequence ∧
    (∀ n ∈ s.walk, ∃ p, s.nodes.pThis n = some p ∧ s.nodes.read p = some n) ∧
    s.m_pLastNode = endSlot .first s.walk

end PtrMultiListBase

open PtrMultiListBase

/-! ### Element sequences -/

variable {n : NodeId}

section dataOf

variable {α : Type} {m : Finmap fun _ : NodeId => α}

def dataOf (m : Finmap fun _ : NodeId => α) (ids : List NodeId) : List α := ids.filterMap fun n => m.lookup n

variable {ids : List NodeId}

theorem dataOf_cons {x : α} (hx : m.lookup n = some x) :
    dataOf m (n :: ids) = x :: dataOf m ids := by
  simp [dataOf, hx]

theorem dataOf_append (a b : List NodeId) : dataOf m (a ++ b) = dataOf m a ++ dataOf m b :=
  List.filterMap_append

theorem dataOf_insert (hn : n ∉ ids) (x : α) :
    dataOf (m.insert n x) ids = dataOf m ids := by
  refine List.filterMap_congr fun k hk => ?_
  exact Finmap.lookup_insert_of_ne _ fun heq => hn (heq ▸ hk)

theorem dataOf_erase (hn : n ∉ ids) :
    dataOf (m.erase n) ids = dataOf m ids := by
  refine List.filterMap_congr fun k hk => ?_
  exact Finmap.lookup_erase_ne fun heq => hn (heq ▸ hk)

theorem getElem?_dataOf (h : ∀ n ∈ ids, n ∈ m.keys) (p : Nat) :
    (dataOf m ids)[p]? = ids[p]?.bind fun n => m.lookup n := by
  induction ids generalizing p with
  | nil => simp [dataOf]
  | cons n ids ih =>
    obtain ⟨x, hx⟩ := mem_keys_iff.mp (h n List.mem_cons_self)
    rw [dataOf_cons hx]
    cases p with
    | zero => simp [hx]
    | succ p => simpa using ih (fun k hk => h k (List.mem_cons_of_mem _ hk)) p

theorem length_dataOf (h : ∀ n ∈ ids, n ∈ m.keys) : (dataOf m ids).length = ids.length := by
  induction ids with
  | nil => rfl
  | cons n ids ih =>
    obtain ⟨x, hx⟩ := mem_keys_iff.mp (h n List.mem_cons_self)
    rw [dataOf_cons hx, List.length_cons, List.length_cons, ih fun k hk => h k (List.mem_cons_of_mem _ hk)]

theorem dataOf_swap (hnodup : ids.Nodup) (h : ∀ n ∈ ids, n ∈ m.keys) {x y : NodeId}
    (hx : x ∈ ids) (hy : y ∈ ids) {dx dy : α} (hdx : m.lookup x = some dx) (hdy : m.lookup y = some dy) :
    dataOf ((m.insert x dy).insert y dx) ids = (SeqOp.swap (ids.idxOf x) (ids.idxOf y)).apply (dataOf m ids) := by
  have hkeys : ∀ n ∈ ids, n ∈ ((m.insert x dy).insert y dx).keys := by
    intro n hn
    rw [keys_insert, keys_insert]
    simp [h n hn]
  have hidx : ∀ {z k}, ids[k]? = some z → ids.idxOf z = k := by
    intro z k hk
    obtain ⟨hlt, rfl⟩ := List.getElem?_eq_some_iff.mp hk
    exact hnodup.idxOf_getElem k hlt
  have hget : ∀ {z}, z ∈ ids → ids[ids.idxOf z]? = some z := by
    intro z hz
    exact List.getElem?_idxOf hz
  have hlen := length_dataOf h
  have hp : (dataOf m ids)[ids.idxOf x]? = some dx := by rw [getElem?_dataOf h, hget hx, Option.bind_some, hdx]
  have hq : (dataOf m ids)[ids.idxOf y]? = some dy := by rw [getElem?_dataOf h, hget hy, Option.bind_some, hdy]
  rw [SeqOp.apply, hp, hq]
  apply List.ext_getElem?
  intro k
  rw [getElem?_dataOf hkeys, List.getElem?_set, List.getElem?_set, List.length_set, hlen, getElem?_dataOf h]
  rcases hk : ids[k]? with _ | z
  · have hle := List.getElem?_eq_none_iff.mp hk
    have hxlt := List.idxOf_lt_length_of_mem hx
    have hylt := List.idxOf_lt_length_of_mem hy
    rw [if_neg (by omega), if_neg (by omega)]
    rfl
  · have hzk := hidx hk
    have hlt : k < ids.length := (List.getElem?_eq_some_iff.mp hk).1
    rw [Option.bind_some, Option.bind_some]
    by_cases hzy : z = y
    · subst hzy
      rw [if_pos hzk, if_pos (by omega), Finmap.lookup_insert]
    · have hyk : ids.idxOf y ≠ k := fun heq => hzy (Option.some.inj (hk.symm.trans (heq ▸ hget hy)))
      rw [if_neg hyk, Finmap.lookup_insert_of_ne _ hzy]
      by_cases hzx : z = x
      · subst hzx
        rw [if_pos hzk, if_pos (by omega), Finmap.lookup_insert]
      · have hxk : ids.idxOf x ≠ k := fun heq => hzx (Option.some.inj (hk.symm.trans (heq ▸ hget hx)))
        rw [if_neg hxk, Finmap.lookup_insert_of_ne _ hzx]

end dataOf

theorem idxOf_middle {a b : List NodeId} {x : NodeId} (hx : x ∉ a) : (a ++ x :: b).idxOf x = a.length := by
  rw [List.idxOf_append_of_notMem hx, List.idxOf_cons_self, Nat.add_zero]

variable {α : Type}

theorem eraseIdx_middle (l r : List α) (x : α) : (l ++ x :: r).eraseIdx l.length = l ++ r := by
  rw [List.eraseIdx_append_of_length_le (le_refl _), Nat.sub_self, List.eraseIdx_cons_zero]

theorem insertIdx_middle (l r : List α) (x : α) : (l ++ r).insertIdx l.length x = l ++ x :: r := by
  induction l with
  | nil => simp
  | cons y l ih => simpa using ih

namespace WellFormed

variable {α : Type} {s : PtrMultiListBase α} {ids : List NodeId} {its : List IterId}

theorem mem_keys (h : WellFormed s ids its) : ∀ n ∈ ids, n ∈ s.m_data.keys := by
  intro n hn
  rw [h.nodes.keys, List.mem_toFinset]
  exact hn

/-- The operation succeeds, keeps the invariant and carries out `op` on the elements. -/
def Simulates (s : PtrMultiListBase α) (op : SeqOp α) (r : Option (PtrMultiListBase α)) : Prop :=
  ∃ s' ids' its', r = some s' ∧ WellFormed s' ids' its' ∧ s'.elements = op.apply s.elements

theorem elements_eq (h : WellFormed s ids its) : s.elements = dataOf s.m_data ids := h.nodes.elements_eq

theorem simulates_of_keeps (h : WellFormed s ids its) {r : Option (PtrMultiListBase α)} (hr : Keeps s ids r) :
    Simulates s .keep r := by
  obtain ⟨s', its', hs', -, hdata, hwf⟩ := hr
  refine ⟨s', ids, its', hs', hwf, ?_⟩
  rw [hwf.elements_eq, h.elements_eq, hdata]
  rfl

theorem simulates_insertAtEnd (h : WellFormed s ids its) (hn : n ∉ s.m_data.keys) (x : α) :
    ∃ s', s.insertAtEnd n x = some s' ∧ s'.cursors.keys = s.cursors.keys ∧ WellFormed s' (ids ++ [n]) its ∧
      s'.elements = s.elements ++ [x] := by
  obtain ⟨s', hs', hdata, hcursors, hwf⟩ := h.insertAtEnd hn x
  refine ⟨s', hs', by rw [hcursors], hwf, ?_⟩
  rw [hwf.elements_eq, h.elements_eq, hdata, dataOf_append, dataOf_insert (h.newNode_eq hn).2,
    dataOf_cons (Finmap.lookup_insert _)]
  rfl

theorem simulates_insertBefore (h : WellFormed s ids its) {item n : NodeId} (hitem : item ∈ ids)
    (hn : n ∉ s.m_data.keys) (x : α) :
    ∃ s' ids', s.insertBefore item n x = some s' ∧ s'.cursors.keys = s.cursors.keys ∧ n ∈ ids' ∧
      WellFormed s' ids' its ∧ s'.elements = s.elements.insertIdx (s.walk.idxOf item) x := by
  obtain ⟨a, b, rfl⟩ := List.append_of_mem hitem
  obtain ⟨s', hs', hdata, hkeys, hwf⟩ := h.insertBefore hn x
  have hnids := (h.newNode_eq hn).2
  have hna : n ∉ a := fun hmem => hnids (List.mem_append_left _ hmem)
  have hnb : n ∉ item :: b := fun hmem => hnids (List.mem_append_right _ hmem)
  have hitemA : item ∉ a := fun hmem => (List.disjoint_of_nodup_append h.nodes.listed.nodup) hmem List.mem_cons_self
  have hlen := length_dataOf fun k hk => h.mem_keys k (List.mem_append_left (item :: b) hk)
  refine ⟨s', _, hs', hkeys, by simp, hwf, ?_⟩
  rw [hwf.elements_eq, h.elements_eq, h.nodes.walk_eq, idxOf_middle hitemA, hdata, dataOf_append, dataOf_append,
    dataOf_insert hna, dataOf_cons (Finmap.lookup_insert _), dataOf_insert hnb, ← hlen, insertIdx_middle]

theorem simulates_removeNode (h : WellFormed s ids its) {item : NodeId} (hitem : item ∈ ids) :
    ∃ s' ids', s.removeNode item = some s' ∧ s'.cursors.keys = s.cursors.keys ∧ WellFormed s' ids' its ∧
      ids'.length + 1 = ids.length ∧ s'.elements = s.elements.eraseIdx (s.walk.idxOf item) := by
  obtain ⟨a, b, rfl⟩ := List.append_of_mem hitem
  obtain ⟨s', hs', hdata, hkeys, hwf⟩ := h.removeNode
  have hnotMem : item ∉ a ++ b := (List.nodup_cons.mp (List.perm_middle.nodup_iff.mp h.nodes.listed.nodup)).1
  have hitemA : item ∉ a := fun hmem => hnotMem (List.mem_append_left _ hmem)
  have hlen := length_dataOf fun k hk => h.mem_keys k (List.mem_append_left (item :: b) hk)
  obtain ⟨x, hx⟩ := mem_keys_iff.mp (h.mem_keys item (by simp))
  refine ⟨s', _, hs', hkeys, hwf, by simp; omega, ?_⟩
  rw [hwf.elements_eq, h.elements_eq, h.nodes.walk_eq, idxOf_middle hitemA, hdata, dataOf_erase hnotMem,
    dataOf_append, dataOf_append, dataOf_cons hx, ← hlen, eraseIdx_middle]

/-! ### Operations -/

theorem simulates_insertAt (h : WellFormed s ids its) {c : Cursor} (hok : CursorOk s.nodes ids c)
    (hn : n ∉ s.m_data.keys) (x : α) :
    ∃ s' ids', s.insertAt c n x = some s' ∧ s'.cursors.keys = s.cursors.keys ∧ n ∈ ids' ∧
      WellFormed s' ids' its ∧ s'.elements = s.elements.insertIdx (s.position c) x := by
  unfold position insertAt
  rcases hitem : c.m_item with _ | item
  · rcases hnext : c.m_nextItem with _ | nextItem
    · obtain ⟨s', hs', hkeys, hwf, helements⟩ := h.simulates_insertAtEnd hn x
      refine ⟨s', _, hs', hkeys, by simp, hwf, ?_⟩
      have hlen : s.elements.length = s.walk.length := by
        rw [h.elements_eq, h.nodes.walk_eq, length_dataOf h.mem_keys]
      have hend := insertIdx_middle s.elements [] x
      rw [List.append_nil, hlen] at hend
      rw [helements, hend]
    · exact h.simulates_insertBefore (hok.nextItem hnext) hn x
  · exact h.simulates_insertBefore (hok.item hitem) hn x

theorem simulates_insert (h : WellFormed s ids its) {iter result : IterId}
    (hiter : iter ∈ s.cursors.keys) (hn : n ∉ s.m_data.keys) (hresult : result ∉ s.cursors.keys) (x : α) :
    Simulates s (s.seqOp (.insert iter n result x)) (s.insert iter n result x) := by
  obtain ⟨c, hc, hok⟩ := h.cursor_of_mem hiter
  obtain ⟨s₁, ids₁, hs₁, hkeys, hmem, hwf₁, helements⟩ := h.simulates_insertAt hok hn x
  have hnew : Keeps s₁ ids₁ (s₁.newIterator result (some n)) := by
    refine hwf₁.keeps_newIterator (hkeys ▸ hresult) fun y hy => ?_
    cases hy
    exact hmem
  obtain ⟨s', its', hs', -, hdata, hwf⟩ := hnew
  refine ⟨s', ids₁, its', ?_, hwf, ?_⟩
  · unfold PtrMultiListBase.insert
    rw [hc]
    dsimp only [Option.bind_eq_bind, Option.bind_some]
    rw [hs₁]
    exact hs'
  · rw [hwf.elements_eq, hdata, ← hwf₁.elements_eq, helements, seqOp, hc]
    rfl

theorem extractElement_null (s : PtrMultiListBase α) {iter : IterId} {c : Cursor} (hc : s.cursors.lookup iter = some c)
    (hitem : c.m_item = none) : s.extractElement iter = some (none, s) := by
  unfold extractElement
  rw [hc]
  dsimp only [Option.bind_eq_bind, Option.bind_some]
  rw [hitem]
  rfl

theorem extractElement_item {s' : PtrMultiListBase α} {iter : IterId} {c : Cursor} {item : NodeId}
    (hc : s.cursors.lookup iter = some c) (hitem : c.m_item = some item) (hs' : s.removeNode item = some s') :
    s.extractElement iter = some (s.m_data.lookup item, s') := by
  unfold extractElement
  rw [hc]
  dsimp only [Option.bind_eq_bind, Option.bind_some]
  rw [hitem]
  dsimp only
  rw [hs']
  rfl

theorem simulates_extractElement (h : WellFormed s ids its) {iter : IterId} (hiter : iter ∈ s.cursors.keys) :
    ∃ data s' ids', s.extractElement iter = some (data, s') ∧ WellFormed s' ids' its ∧
      s'.elements = (s.eraseOp (s.itemOf iter)).apply s.elements := by
  obtain ⟨c, hc, hok⟩ := h.cursor_of_mem hiter
  rw [itemOf, hc, Option.bind_some]
  rcases hitem : c.m_item with _ | item
  · exact ⟨none, s, ids, extractElement_null s hc hitem, h, rfl⟩
  · obtain ⟨s', ids', hs', -, hwf, -, helements⟩ := h.simulates_removeNode (hok.item hitem)
    exact ⟨_, s', ids', extractElement_item hc hitem hs', hwf, helements⟩

theorem deleter (h : WellFormed s ids its) (data : Option α) : WellFormed (s.deleter data) ids its :=
  ⟨h.nodes.of_eq rfl rfl rfl, h.iterators, h.cursors⟩

theorem simulates_erase (h : WellFormed s ids its) {iter : IterId} (hiter : iter ∈ s.cursors.keys) :
    Simulates s (s.seqOp (.erase iter)) (s.erase iter) := by
  obtain ⟨data, s', ids', hs', hwf, helements⟩ := h.simulates_extractElement hiter
  refine ⟨s'.deleter data, ids', its, ?_, hwf.deleter data, ?_⟩
  · unfold PtrMultiListBase.erase
    rw [hs']
    rfl
  · rw [(hwf.deleter data).elements_eq]
    exact hwf.elements_eq.symm.trans helements

theorem simulates_extractFront (h : WellFormed s ids its) {tmp : IterId} (htmp : tmp ∉ s.cursors.keys) :
    ∃ data s' ids' its', s.extractFront tmp = some (data, s') ∧ tmp ∉ s'.cursors.keys ∧
      WellFormed s' ids' its' ∧ ids'.length = ids.length - 1 ∧ s'.elements = s.elements.eraseIdx 0 := by
  have hfirst := h.nodes.first_eq
  have hitem : ∀ x ∈ s.nodes.first, x ∈ ids := fun x hx => List.mem_of_head? (hfirst ▸ hx)
  obtain ⟨hbegin, hwf₁⟩ := h.newIterator htmp hitem
  have hlookup := Finmap.lookup_insert (a := tmp) (b := (⟨s.nodes.first, s.nodes.first.bind s.nodes.next⟩ : Cursor))
    s.cursors
  -- the element is extracted from the state with the temporary iterator
  have hextract : ∃ data s₂ ids₂, extractElement { s with
        cursors := s.cursors.insert tmp ⟨s.nodes.first, s.nodes.first.bind s.nodes.next⟩
        iterators := s.iterators.linkAt .first tmp } tmp = some (data, s₂) ∧ tmp ∈ s₂.cursors.keys ∧
      WellFormed s₂ ids₂ (tmp :: its) ∧ ids₂.length = ids.length - 1 ∧ s₂.elements = s.elements.eraseIdx 0 := by
    cases ids with
    | nil =>
      refine ⟨none, _, [], extractElement_null _ hlookup hfirst, ?_, hwf₁, rfl, ?_⟩
      · exact mem_keys_iff.mpr ⟨_, hlookup⟩
      · rw [hwf₁.elements_eq, h.elements_eq]
        rfl
    | cons x ids =>
      obtain ⟨s₂, ids₂, hs₂, hkeys, hwf₂, hlen, helements⟩ := hwf₁.simulates_removeNode List.mem_cons_self
      refine ⟨_, s₂, ids₂, extractElement_item hlookup hfirst hs₂, ?_, hwf₂, by simp at hlen ⊢; omega, ?_⟩
      · rw [hkeys]
        exact mem_keys_iff.mpr ⟨_, hlookup⟩
      · rw [helements, hwf₁.elements_eq, h.elements_eq, hwf₁.nodes.walk_eq, List.idxOf_cons_self]
  obtain ⟨data, s₂, ids₂, hs₂, hmem, hwf₂, hlen, helements⟩ := hextract
  obtain ⟨s', hs', -, hdata, hkeys, hwf⟩ := hwf₂.destroyIterator hmem
  refine ⟨data, s', ids₂, _, ?_, ?_, hwf, hlen, ?_⟩
  · unfold extractFront beginIterator
    rw [hbegin]
    dsimp only [Option.bind_eq_bind, Option.bind_some]
    rw [hs₂]
    dsimp only [Option.bind_eq_bind, Option.bind_some]
    rw [hs']
    rfl
  · rw [hkeys]
    exact Finset.notMem_erase tmp _
  · rw [hwf.elements_eq, hdata, ← hwf₂.elements_eq, helements]

theorem clearLoop (h : WellFormed s ids its) {tmp : IterId} (htmp : tmp ∉ s.cursors.keys) {fuel : Nat}
    (hfuel : ids.length ≤ fuel) :
    ∃ s' its', PtrMultiListBase.clearLoop tmp fuel s = some s' ∧ WellFormed s' [] its' := by
  induction fuel generalizing s ids its with
  | zero =>
    have hnil : ids = [] := List.length_eq_zero_iff.mp (by omega)
    subst hnil
    have hfirst : s.nodes.first = none := h.nodes.first_eq
    exact ⟨s, its, by unfold PtrMultiListBase.clearLoop; rw [hfirst], h⟩
  | succ fuel ih =>
    unfold PtrMultiListBase.clearLoop
    have hfirst := h.nodes.first_eq
    cases ids with
    | nil =>
      rw [hfirst]
      exact ⟨s, its, rfl, h⟩
    | cons x ids =>
      obtain ⟨data, s₁, ids₁, its₁, hs₁, htmp₁, hwf₁, hlen, -⟩ := h.simulates_extractFront htmp
      have hfuel₁ : ids₁.length ≤ fuel := by simp at hlen hfuel; omega
      obtain ⟨s', its', hs', hwf⟩ := ih (hwf₁.deleter data) htmp₁ hfuel₁
      refine ⟨s', its', ?_, hwf⟩
      rw [hfirst]
      dsimp only [List.head?_cons]
      rw [hs₁]
      exact hs'

theorem simulates_clear (h : WellFormed s ids its) {tmp : IterId} (htmp : tmp ∉ s.cursors.keys) :
    Simulates s .clear (s.clear tmp) := by
  obtain ⟨s₁, hs₁, -, hdata, hkeys, hwf₁⟩ := h.invalidateAllIterators
  have hfuel : ids.length ≤ s₁.m_data.keys.card := by
    rw [hwf₁.nodes.keys, List.toFinset_card_of_nodup h.nodes.listed.nodup]
  obtain ⟨s', its', hs', hwf⟩ := hwf₁.clearLoop (hkeys ▸ htmp) hfuel
  refine ⟨s', [], its', ?_, hwf, hwf.elements_eq⟩
  unfold PtrMultiListBase.clear
  rw [hs₁]
  exact hs'

theorem pushFrontNew_of_empty (h : WellFormed s ids its) (hempty : s.nodes.first = none) (n : NodeId) (x : α) :
    s.pushFrontNew n x = s.insertAtEnd n x ∧ s.elements = [] := by
  have hfirst := h.nodes.first_eq
  rw [hempty, eq_comm, List.head?_eq_none_iff] at hfirst
  subst hfirst
  have hlast : s.m_pLastNode = .first := h.nodes.last
  refine ⟨?_, h.elements_eq⟩
  unfold pushFrontNew PtrMultiListBase.insertAtEnd
  rw [hempty, hlast, if_pos rfl]
  cases s.newNode n with
  | none => rfl
  | some u => simp [derefs, slotNode]

theorem swap (h : WellFormed s ids its) {x y : NodeId} (hx : x ∈ ids) (hy : y ∈ ids) (dx dy : α) :
    WellFormed { s with m_data := (s.m_data.insert x dy).insert y dx } ids its := by
  have hkeys : ((s.m_data.insert x dy).insert y dx).keys = s.m_data.keys := by
    rw [keys_insert_of_mem, keys_insert_of_mem (h.mem_keys x hx)]
    rw [keys_insert_of_mem (h.mem_keys x hx)]
    exact h.mem_keys y hy
  exact ⟨⟨h.nodes.listed, h.nodes.last, hkeys.trans h.nodes.keys⟩, h.iterators, h.cursors⟩

theorem simulates_swapElements (h : WellFormed s ids its) {a b : IterId} {x y : NodeId} (ha : s.itemOf a = some x)
    (hb : s.itemOf b = some y) :
    Simulates s (.swap (s.walk.idxOf x) (s.walk.idxOf y)) (s.swapElements a b) := by
  obtain ⟨ca, hca, hax⟩ := Option.bind_eq_some_iff.mp ha
  obtain ⟨cb, hcb, hby⟩ := Option.bind_eq_some_iff.mp hb
  have hx : x ∈ ids := (h.cursors hca).item hax
  have hy : y ∈ ids := (h.cursors hcb).item hby
  obtain ⟨dx, hdx⟩ := mem_keys_iff.mp (h.mem_keys x hx)
  obtain ⟨dy, hdy⟩ := mem_keys_iff.mp (h.mem_keys y hy)
  have hwf := h.swap hx hy dx dy
  refine ⟨_, ids, its, ?_, hwf, ?_⟩
  · unfold swapElements
    simp only [hca, hcb, hax, hby, hdx, hdy, Option.bind_eq_bind, Option.bind_some]
    rfl
  · rw [hwf.elements_eq, h.elements_eq, h.nodes.walk_eq]
    exact dataOf_swap h.nodes.listed.nodup h.mem_keys hx hy hdx hdy

/-- Every operation within the contract, but `pushFrontNew` on a non-empty list, carries out its list operation. -/
theorem simulates_exec (h : WellFormed s ids its) {op : Op α} (hvalid : s.Valid op) (hop : ¬s.PushesBeforeFirst op) :
    Simulates s (s.seqOp op) (s.exec op) := by
  cases op with
  | pushBackNew n x =>
    obtain ⟨s', hs', -, hwf, helements⟩ := h.simulates_insertAtEnd hvalid x
    exact ⟨s', _, its, hs', hwf, helements⟩
  | pushFrontNew n x =>
    obtain ⟨hsame, hempty⟩ := h.pushFrontNew_of_empty (not_not.mp hop) n x
    obtain ⟨s', hs', -, hwf, helements⟩ := h.simulates_insertAtEnd hvalid x
    refine ⟨s', _, its, hsame.trans hs', hwf, ?_⟩
    rw [helements, hempty]
    rfl
  | insert iter n result x => exact h.simulates_insert hvalid.1 hvalid.2.1 hvalid.2.2 x
  | erase iter => exact h.simulates_erase hvalid
  | extractElement iter =>
    obtain ⟨data, s', ids', hs', hwf, helements⟩ := h.simulates_extractElement hvalid
    exact ⟨s', ids', its, congrArg (Option.map Prod.snd) hs', hwf, helements⟩
  | swapElements a b =>
    obtain ⟨x, hx⟩ := Option.ne_none_iff_exists'.mp hvalid.1
    obtain ⟨y, hy⟩ := Option.ne_none_iff_exists'.mp hvalid.2
    rw [seqOp, hx, hy]
    exact h.simulates_swapElements hx hy
  | extractFront tmp =>
    obtain ⟨data, s', ids', its', hs', -, hwf, -, helements⟩ := h.simulates_extractFront hvalid
    exact ⟨s', ids', its', congrArg (Option.map Prod.snd) hs', hwf, helements⟩
  | clear tmp => exact h.simulates_clear hvalid
  | beginIterator i => exact h.simulates_of_keeps (h.keeps_beginIterator hvalid)
  | endIterator i => exact h.simulates_of_keeps (h.keeps_endIterator hvalid)
  | copyIterator i other => exact h.simulates_of_keeps (h.keeps_copyIterator hvalid.1 hvalid.2)
  | assignIterator i other => exact h.simulates_of_keeps (h.keeps_assignIterator hvalid.1 hvalid.2)
  | nextIterator i => exact h.simulates_of_keeps (h.keeps_nextIterator hvalid)
  | invalidate i => exact h.simulates_of_keeps (h.keeps_invalidate hvalid)
  | destroyIterator i => exact h.simulates_of_keeps (h.keeps_destroyIterator hvalid)
  | invalidateAllIterators =>
    obtain ⟨s', hs', hnodes, hdata, -, hwf⟩ := h.invalidateAllIterators
    exact h.simulates_of_keeps ⟨s', [], hs', hnodes, hdata, hwf⟩

theorem pushFrontNew_breaks (h : WellFormed s ids its) (hn : n ∉ s.m_data.keys)
    (hfirst : s.nodes.first ≠ none) (x : α) (l : List α) : ¬Refines ⟨s.pushFrontNew n x, l⟩ := by
  obtain ⟨f, hf⟩ := Option.ne_none_iff_exists'.mp hfirst
  have hfids : f ∈ ids := List.mem_of_head? (h.nodes.first_eq ▸ hf)
  have hnf : n ≠ f := fun heq => hn (h.mem_keys n (heq ▸ hfids))
  have hback : s.nodes.pThis f = some .first := by
    rw [h.nodes.first_eq] at hf
    cases ids with
    | nil => cases hf
    | cons k ids =>
      cases hf
      exact h.nodes.listed.path.2.1
  rintro ⟨s', hs', -, hlinks, -⟩
  unfold pushFrontNew at hs'
  rw [(h.newNode_eq hn).1] at hs'
  cases hs'
  -- the walk passes through the new node and then the old first one
  have hwalk : f ∈ walk { s with
      m_data := s.m_data.insert n x
      nodes := ((s.nodes.write (.next n) s.nodes.first).setPThis n (some .first)).write .first (some n)
      m_pLastNode := if s.nodes.first = none then .next n else s.m_pLastNode } := by
    obtain ⟨k, hk⟩ : ∃ k, (s.m_data.insert n x).keys.card = k + 2 := by
      have hpos : 0 < s.m_data.keys.card := Finset.card_pos.mpr ⟨f, h.mem_keys f hfids⟩
      refine ⟨s.m_data.keys.card - 1, ?_⟩
      rw [keys_insert, Finset.card_insert_of_notMem hn]
      omega
    have hnext : Function.update s.nodes.next n s.nodes.first n = some f := by rw [Function.update_self, hf]
    simp only [walk, hk, Links.walk, Links.write, Links.setPThis, Links.walkFrom, hnext]
    simp
  obtain ⟨p, hp, hread⟩ := hlinks f hwalk
  rw [Links.pThis_write, Links.pThis_setPThis_of_ne _ hnf.symm, Links.pThis_write, hback, Option.some.injEq] at hp
  rw [← hp, Links.read_write_self, Option.some.injEq] at hread
  exact hnf hread

end WellFormed

/-! ### Runs -/

def RunInv {α : Type} (m : Machine α) : Prop :=
  ∃ s ids its, m.list = some s ∧ WellFormed s ids its ∧ s.elements = m.sequence

theorem RunInv.refines {m : Machine α} (h : RunInv m) : Refines m := by
  obtain ⟨s, ids, its, hs, hwf, helements⟩ := h
  refine ⟨s, hs, helements, fun n hn => ?_, ?_⟩
  · rw [hwf.nodes.walk_eq] at hn
    exact hwf.nodes.listed.read_pThis hn
  · rw [hwf.nodes.walk_eq, hwf.nodes.last]

theorem runInv_new (α : Type) : RunInv (⟨some new, []⟩ : Machine α) := by
  refine ⟨new, [], [], rfl, ⟨⟨Links.listed_empty _ _, rfl, rfl⟩, ⟨Links.listed_empty _ _, fun hi => ?_, fun hc => ?_⟩,
    fun hc => ?_⟩, rfl⟩
  · simp at hi
  · simp [new] at hc
  · simp [new] at hc

/-- Whether the operation of a step is `pushFrontNew` on a non-empty list. -/
def PushesBefore {α : Type} (m : Machine α) (op : Op α) : Prop := ∃ s, m.list = some s ∧ s.PushesBeforeFirst op

theorem step_eq {m m' : Machine α} {op : Op α} {s : PtrMultiListBase α} (hs : m.list = some s)
    (hm : step m op = some m') : s.Valid op ∧ m' = ⟨s.exec op, (s.seqOp op).apply m.sequence⟩ := by
  unfold step at hm
  rw [hs] at hm
  dsimp only at hm
  split at hm
  · rename_i hvalid
    cases hm
    exact ⟨hvalid, rfl⟩
  · cases hm

theorem RunInv.step {m : Machine α} {op : Op α} {m' : Machine α}
    (hm : PtrMultiListBase.step m op = some m') (h : RunInv m) (hop : ¬PushesBefore m op) : RunInv m' := by
  obtain ⟨s, ids, its, hs, hwf, helements⟩ := h
  obtain ⟨hvalid, rfl⟩ := step_eq hs hm
  obtain ⟨s', ids', its', hs', hwf', helements'⟩ := hwf.simulates_exec hvalid fun hbad => hop ⟨s, hs, hbad⟩
  rw [helements] at helements'
  exact ⟨s', ids', its', hs', hwf', helements'⟩

theorem RunInv.step_breaks {m : Machine α} {op : Op α} {m' : Machine α}
    (hm : PtrMultiListBase.step m op = some m') (h : RunInv m) (hop : ¬¬PushesBefore m op) : ¬Refines m' := by
  obtain ⟨s, ids, its, hs, hwf, -⟩ := h
  obtain ⟨hvalid, rfl⟩ := step_eq hs hm
  obtain ⟨s₁, hs₁, hbad⟩ := not_not.mp hop
  cases hs.symm.trans hs₁
  cases op with
  | pushFrontNew n x => exact hwf.pushFrontNew_breaks hvalid hbad x _
  | _ => exact hbad.elim

/-- Along every run from an empty list, the walk over the nodes gives the sequence that the same operations produce
on an ordinary list and all links are consistent, exactly if no `pushFrontNew` is called on a non-empty list. -/
theorem run_refines_iff {α : Type} (ops : List (Op α)) :
    (∀ t ∈ Run.trace step (⟨some new, []⟩ : Machine α) ops, Refines t.post) ↔
      ∀ t ∈ Run.trace step (⟨some new, []⟩ : Machine α) ops, ¬PushesBefore t.pre t.act :=
  Run.forall_post_iff (I := RunInv) (C := fun m op => ¬PushesBefore m op) RunInv.refines RunInv.step
    RunInv.step_breaks (runInv_new α) ops

/-- Two calls of `pushFrontNew`, and then the removal of the element that was pushed first: the walk is empty, but the
element pushed last was never removed. -/
theorem pushFrontNew_loses_element :
    ∃ s : PtrMultiListBase Nat, (Run.final step (⟨some new, []⟩ : Machine Nat)
        [.pushFrontNew 1 10, .pushFrontNew 2 20, .beginIterator 7, .nextIterator 7, .erase 7]) = some ⟨some s, [20]⟩ ∧
      s.elements = [] :=
  ⟨_, rfl, by decide⟩

end Afl.Container
