import Afl.Container.Sequence

/-!
# Lists with stale back pointers

After `pushFrontNew` on a non-empty list, the old first node still says that the pointer at it is `m_firstNode`.
Only inserting before that node or removing it goes wrong because of it. `withBack` puts the right back pointers in:
`Mends s back` says that `s` differs from `s.withBack back` by stale ones only, and each operation does the same to both.
-/

namespace Afl.Container

open Intrusive

namespace PtrMultiListBase

variable {α : Type}

def withBack (s : PtrMultiListBase α) (back : NodeId → Option (Slot NodeId)) : PtrMultiListBase α :=
  { s with nodes := { s.nodes with pThis := back } }

/-- The back pointers `back` differ from those of `s` only where these say that a node is the first one. -/
def Mends (s : PtrMultiListBase α) (back : NodeId → Option (Slot NodeId)) : Prop :=
  ∀ n, back n = s.nodes.pThis n ∨ s.nodes.pThis n = some .first

variable {s : PtrMultiListBase α} {back : NodeId → Option (Slot NodeId)}

theorem withBack_self (s : PtrMultiListBase α) : s.withBack s.nodes.pThis = s := rfl

theorem walk_withBack : (s.withBack back).walk = s.walk := by
  unfold walk Links.walk
  have hfrom (fuel : Nat) (o : Option NodeId) :
      (s.withBack back).nodes.walkFrom fuel o = s.nodes.walkFrom fuel o := by
    induction fuel generalizing o with
    | zero => cases o <;> rfl
    | succ fuel ih =>
      cases o with
      | none => rfl
      | some n => exact congrArg (n :: ·) (ih _)
  exact hfrom _ _

/-! ### Operations that do not look at back pointers -/

theorem newIterator_withBack (i : IterId) (item : Option NodeId) :
    (s.withBack back).newIterator i item = (s.newIterator i item).map (·.withBack back) := by
  unfold newIterator
  by_cases hi : i ∈ s.cursors.keys
  · have hi' : i ∈ (s.withBack back).cursors.keys := hi
    rw [if_pos hi, if_pos hi']
    rfl
  · have hi' : i ∉ (s.withBack back).cursors.keys := hi
    rw [if_neg hi, if_neg hi']
    have hsame : (s.withBack back).derefs item.toList = s.derefs item.toList := rfl
    dsimp only
    rw [hsame]
    cases s.derefs item.toList <;> rfl

theorem copyIterator_withBack (i other : IterId) :
    (s.withBack back).copyIterator i other = (s.copyIterator i other).map (·.withBack back) := by
  unfold copyIterator
  by_cases hi : i ∈ s.cursors.keys
  · rw [if_pos hi, if_pos (show i ∈ (s.withBack back).cursors.keys from hi)]
    rfl
  · rw [if_neg hi, if_neg (show i ∉ (s.withBack back).cursors.keys from hi)]
    dsimp only
    rw [show (s.withBack back).cursors.lookup other = s.cursors.lookup other from rfl]
    cases s.cursors.lookup other <;> rfl

theorem assignIterator_withBack (i other : IterId) :
    (s.withBack back).assignIterator i other = (s.assignIterator i other).map (·.withBack back) := by
  unfold assignIterator
  rw [show (s.withBack back).cursors.lookup i = s.cursors.lookup i from rfl,
    show (s.withBack back).cursors.lookup other = s.cursors.lookup other from rfl]
  cases s.cursors.lookup i with
  | none => rfl
  | some c =>
    cases s.cursors.lookup other with
    | none => rfl
    | some d =>
      dsimp only [Option.bind_eq_bind, Option.bind_some]
      split <;> rfl

theorem endIterator_withBack (i : IterId) :
    (s.withBack back).endIterator i = (s.endIterator i).map (·.withBack back) := by
  unfold endIterator
  by_cases hi : i ∈ s.cursors.keys
  · rw [if_pos hi, if_pos (show i ∈ (s.withBack back).cursors.keys from hi)]
    rfl
  · rw [if_neg hi, if_neg (show i ∉ (s.withBack back).cursors.keys from hi)]
    rfl

theorem nextIterator_withBack (i : IterId) :
    (s.withBack back).nextIterator i = (s.nextIterator i).map (·.withBack back) := by
  unfold nextIterator
  rw [show (s.withBack back).cursors.lookup i = s.cursors.lookup i from rfl]
  cases s.cursors.lookup i with
  | none => rfl
  | some c =>
    dsimp only [Option.bind_eq_bind, Option.bind_some]
    rw [show (s.withBack back).derefs c.m_nextItem.toList = s.derefs c.m_nextItem.toList from rfl]
    cases s.derefs c.m_nextItem.toList <;> rfl

theorem invalidate_withBack (i : IterId) :
    (s.withBack back).invalidate i = (s.invalidate i).map (·.withBack back) := by
  unfold invalidate
  rw [show (s.withBack back).cursors.lookup i = s.cursors.lookup i from rfl]
  cases s.cursors.lookup i <;> rfl

theorem destroyIterator_withBack (i : IterId) :
    (s.withBack back).destroyIterator i = (s.destroyIterator i).map (·.withBack back) := by
  unfold destroyIterator
  rw [show (s.withBack back).cursors.lookup i = s.cursors.lookup i from rfl]
  cases s.cursors.lookup i <;> rfl

theorem invalidateLoop_withBack (fuel : Nat) :
    (s.withBack back).invalidateLoop fuel = (s.invalidateLoop fuel).map (·.withBack back) := by
  induction fuel generalizing s with
  | zero =>
    unfold invalidateLoop
    rw [show (s.withBack back).iterators.first = s.iterators.first from rfl]
    cases s.iterators.first <;> rfl
  | succ fuel ih =>
    unfold invalidateLoop
    rw [show (s.withBack back).iterators.first = s.iterators.first from rfl]
    cases s.iterators.first with
    | none => rfl
    | some i =>
      dsimp only
      rw [invalidate_withBack]
      cases s.invalidate i with
      | none => rfl
      | some s₁ => exact ih

/-! ### Operations that do -/

theorem insertAtEnd_withBack (n : NodeId) (x : α) :
    (s.withBack back).insertAtEnd n x =
      (s.insertAtEnd n x).map (·.withBack (Function.update back n (some s.m_pLastNode))) := by
  unfold insertAtEnd
  rw [show (s.withBack back).newNode n = s.newNode n from rfl,
    show (s.withBack back).derefs (slotNode (s.withBack back).m_pLastNode) = s.derefs (slotNode s.m_pLastNode) from rfl]
  rcases s.newNode n with _ | _
  · rfl
  dsimp only [Option.bind_eq_bind, Option.bind_some]
  rcases s.derefs (slotNode s.m_pLastNode) with _ | _
  · rfl
  have hlast : (s.withBack back).m_pLastNode = s.m_pLastNode := rfl
  rw [hlast]
  cases s.m_pLastNode <;> rfl

/-- The list with a new node before `item`, which is linked in at the slot `p`. -/
def insertedNode (s : PtrMultiListBase α) (item n : NodeId) (p : Slot NodeId) (data : α) : PtrMultiListBase α :=
  forIterators { s with
    m_data := s.m_data.insert n data
    nodes := (((s.nodes.write (.next n) (some item)).setPThis n (some p)).write p (some n)).setPThis item
      (some (.next n)) } (rewriteCursor item n)

theorem insertBefore_eq (s : PtrMultiListBase α) (item n : NodeId) (data : α) :
    s.insertBefore item n data = (s.newNode n).bind fun _ => (s.derefs [item]).bind fun _ =>
      (s.nodes.pThis item).bind fun p => (s.derefs (slotNode p)).bind fun _ => some (s.insertedNode item n p data) :=
  rfl

def backAfterInsertion (back : NodeId → Option (Slot NodeId)) (item n : NodeId) (p : Slot NodeId) :
    NodeId → Option (Slot NodeId) :=
  Function.update (Function.update back n (some p)) item (some (.next n))

theorem insertedNode_withBack (item n : NodeId) (p : Slot NodeId) (x : α) :
    (s.withBack back).insertedNode item n p x =
      (s.insertedNode item n p x).withBack (backAfterInsertion back item n p) := by
  cases p <;> rfl

theorem insertBefore_withBack {item : NodeId} {p : Slot NodeId} (hp : s.nodes.pThis item = some p)
    (hback : back item = some p) (n : NodeId) (x : α) :
    (s.withBack back).insertBefore item n x =
      (s.insertBefore item n x).map (·.withBack (backAfterInsertion back item n p)) := by
  rw [insertBefore_eq, insertBefore_eq, show (s.withBack back).nodes.pThis item = some p from hback, hp,
    show (s.withBack back).newNode n = s.newNode n from rfl, show (s.withBack back).derefs [item] = s.derefs [item] from rfl]
  rcases s.newNode n with _ | _
  · rfl
  rcases s.derefs [item] with _ | _
  · rfl
  dsimp only [Option.bind_some]
  rw [show (s.withBack back).derefs (slotNode p) = s.derefs (slotNode p) from rfl]
  rcases s.derefs (slotNode p) with _ | _
  · rfl
  · exact congrArg some (insertedNode_withBack item n p x)

/-- The list without `item`, which is linked in at the slot `p`. -/
def removedNode (s : PtrMultiListBase α) (item : NodeId) (p : Slot NodeId) : PtrMultiListBase α :=
  { s.forIterators (eraseCursor item (s.nodes.next item)) with
    nodes := s.nodes.unlinkFrom p item
    m_pLastNode := if s.nodes.next item = none then p else s.m_pLastNode
    m_data := s.m_data.erase item }

theorem removeNode_eq (s : PtrMultiListBase α) (item : NodeId) :
    s.removeNode item = (s.derefs [item]).bind fun _ => (s.nodes.pThis item).bind fun p =>
      (s.derefs (slotNode p ++ (s.nodes.next item).toList)).bind fun _ => some (s.removedNode item p) := rfl

/-- The back pointers after `item` was removed. -/
def backAfterRemoval (back : NodeId → Option (Slot NodeId)) (p : Slot NodeId) :
    Option NodeId → NodeId → Option (Slot NodeId)
  | none => back
  | some m => Function.update back m (some p)

theorem removedNode_withBack (item : NodeId) (p : Slot NodeId) :
    (s.withBack back).removedNode item p =
      (s.removedNode item p).withBack (backAfterRemoval back p (s.nodes.next item)) := by
  have hnodes : (s.withBack back).nodes.unlinkFrom p item =
      { s.nodes.unlinkFrom p item with pThis := backAfterRemoval back p (s.nodes.next item) } := by
    unfold Links.unlinkFrom
    rw [show (s.withBack back).nodes.next item = s.nodes.next item from rfl]
    cases s.nodes.next item <;> cases p <;> rfl
  unfold removedNode
  rw [hnodes]
  rfl

theorem removeNode_withBack {item : NodeId} {p : Slot NodeId} (hp : s.nodes.pThis item = some p)
    (hback : back item = some p) :
    (s.withBack back).removeNode item =
      (s.removeNode item).map (·.withBack (backAfterRemoval back p (s.nodes.next item))) := by
  rw [removeNode_eq, removeNode_eq, show (s.withBack back).nodes.pThis item = some p from hback, hp]
  rw [show (s.withBack back).derefs [item] = s.derefs [item] from rfl]
  rcases s.derefs [item] with _ | _
  · rfl
  dsimp only [Option.bind_some]
  rw [show (s.withBack back).derefs (slotNode p ++ ((s.withBack back).nodes.next item).toList) =
    s.derefs (slotNode p ++ (s.nodes.next item).toList) from rfl]
  rcases s.derefs (slotNode p ++ (s.nodes.next item).toList) with _ | _
  · rfl
  · exact congrArg some (removedNode_withBack item p)

/-! ### Fresh back pointers -/

/-- The back pointer of `item` leads to a pointer at `item`. -/
def Fresh (s : PtrMultiListBase α) (item : NodeId) : Prop := (s.nodes.pThis item).bind s.nodes.read = some item

instance (s : PtrMultiListBase α) (item : NodeId) : Decidable (s.Fresh item) := by
  unfold Fresh
  infer_instance

/-- All is well but for stale back pointers. -/
def Mended (s : PtrMultiListBase α) (ids : List NodeId) : Prop :=
  ∃ back its, WellFormed (s.withBack back) ids its ∧ Mends s back

namespace Mended

variable {ids : List NodeId}

theorem of_wellFormed {its : List IterId} (h : WellFormed s ids its) : Mended s ids :=
  ⟨s.nodes.pThis, its, h, fun _ => .inl rfl⟩

theorem cursorOk (h : Mended s ids) {i : IterId} {c : Cursor} (hc : s.cursors.lookup i = some c) :
    CursorOk s.nodes ids c := by
  obtain ⟨back, its, hwf, -⟩ := h
  have hok := hwf.cursors hc
  exact ⟨hok.item, hok.nextItem, hok.adjacent⟩

theorem walk_eq (h : Mended s ids) : s.walk = ids := by
  obtain ⟨back, its, hwf, -⟩ := h
  have hwalk : (s.withBack back).walk = s.walk := walk_withBack
  rw [← hwalk, hwf.nodes.walk_eq]

theorem nodup (h : Mended s ids) : ids.Nodup := by
  obtain ⟨back, its, hwf, -⟩ := h
  exact hwf.nodes.listed.nodup

theorem first_eq (h : Mended s ids) : s.nodes.first = ids.head? := by
  obtain ⟨back, its, hwf, -⟩ := h
  exact hwf.nodes.first_eq

theorem next_eq {a b : List NodeId} {x : NodeId} (h : Mended s (a ++ x :: b)) : s.nodes.next x = b.head? := by
  obtain ⟨back, its, hwf, -⟩ := h
  exact hwf.nodes.listed.next_eq

theorem last_iff (h : Mended s ids) {x : NodeId} : s.m_pLastNode = .next x ↔ ids.getLast? = some x := by
  obtain ⟨back, its, hwf, -⟩ := h
  rw [show s.m_pLastNode = endSlot .first ids from hwf.nodes.last]
  rcases List.eq_nil_or_concat' ids with rfl | ⟨front, y, rfl⟩
  · simp [endSlot]
  · rw [endSlot_append, List.getLast?_concat, Option.some.injEq]
    exact ⟨fun heq => by cases heq; rfl, fun heq => by rw [heq]; rfl⟩

theorem mem_keys_iff (h : Mended s ids) {n : NodeId} : n ∈ s.m_data.keys ↔ n ∈ ids := by
  obtain ⟨back, its, hwf, -⟩ := h
  rw [show s.m_data.keys = ids.toFinset from hwf.nodes.keys, List.mem_toFinset]

theorem fresh_head {x : NodeId} (h : Mended s (x :: ids)) : s.Fresh x := by
  have hfirst := h.first_eq
  obtain ⟨back, its, hwf, hm⟩ := h
  have hback : back x = some .first := hwf.nodes.listed.path.2.1
  have hthis : s.nodes.pThis x = some .first := by
    rcases hm x with heq | heq
    · rw [← heq, hback]
    · exact heq
  rw [Fresh, hthis]
  exact hfirst

theorem stale {x : NodeId} (h : Mended s ids) (hx : x ∈ ids) (hstale : ¬s.Fresh x) :
    s.nodes.pThis x = some .first ∧ ids.head? ≠ some x := by
  have hfirst := h.first_eq
  obtain ⟨back, its, hwf, hm⟩ := h
  have hthis : s.nodes.pThis x = some .first := by
    rcases hm x with heq | heq
    · obtain ⟨p, hp, hread⟩ := hwf.nodes.listed.read_pThis hx
      refine absurd ?_ hstale
      rw [Fresh, ← heq, show back x = some p from hp]
      cases p <;> exact hread
    · exact heq
  refine ⟨hthis, fun hhead => hstale ?_⟩
  rw [Fresh, hthis]
  exact hfirst.trans hhead

theorem back_of_fresh {x : NodeId} {its : List IterId} (hwf : WellFormed (s.withBack back) ids its)
    (hm : Mends s back) (hx : x ∈ ids) (hfresh : s.Fresh x) :
    ∃ p, s.nodes.pThis x = some p ∧ back x = some p := by
  obtain ⟨p, hp, hread⟩ := Option.bind_eq_some_iff.mp hfresh
  refine ⟨p, hp, ?_⟩
  rcases hm x with heq | heq
  · rw [heq, hp]
  · have hfirst : ids.head? = some x := by
      rw [← hwf.nodes.first_eq]
      rw [hp, Option.some.injEq] at heq
      subst heq
      exact hread
    obtain ⟨rest, rfl⟩ := List.head?_eq_some_iff.mp hfirst
    have hback : back x = some .first := hwf.nodes.listed.path.2.1
    rw [hback, ← heq, hp]

/-! ### Operations -/

theorem of_keeps (h : Mended s ids) (op : PtrMultiListBase α → Option (PtrMultiListBase α))
    (hop : ∀ back, op (s.withBack back) = (op s).map (·.withBack back))
    (hkeeps : ∀ {back its}, WellFormed (s.withBack back) ids its →
      WellFormed.Keeps (s.withBack back) ids (op (s.withBack back))) :
    ∃ s', op s = some s' ∧ Mended s' ids := by
  obtain ⟨back, its, hwf, hm⟩ := h
  obtain ⟨t, its', ht, -, -, hwf'⟩ := hkeeps hwf
  rw [hop, Option.map_eq_some_iff] at ht
  obtain ⟨s', hs', rfl⟩ := ht
  have hthis : s'.nodes.pThis = s.nodes.pThis := by
    have hself := hop s.nodes.pThis
    rw [withBack_self, hs', Option.map_some, Option.some.injEq] at hself
    rw [hself]
    rfl
  refine ⟨s', hs', back, its', hwf', ?_⟩
  intro n
  rw [hthis]
  exact hm n

theorem insertAtEnd (h : Mended s ids) {n : NodeId} (hn : n ∉ s.m_data.keys) (x : α) :
    ∃ s', s.insertAtEnd n x = some s' ∧ s'.cursors = s.cursors ∧ Mended s' (ids ++ [n]) := by
  obtain ⟨back, its, hwf, hm⟩ := h
  obtain ⟨t, ht, -, hcursors, hwf'⟩ := hwf.insertAtEnd hn x
  rw [insertAtEnd_withBack, Option.map_eq_some_iff] at ht
  obtain ⟨s', hs', rfl⟩ := ht
  have hthis : s'.nodes.pThis = Function.update s.nodes.pThis n (some s.m_pLastNode) := by
    have hself : (s.withBack s.nodes.pThis).insertAtEnd n x = _ := insertAtEnd_withBack n x
    rw [withBack_self, hs', Option.map_some, Option.some.injEq] at hself
    rw [hself]
    rfl
  refine ⟨s', hs', hcursors, _, its, hwf', fun k => ?_⟩
  rw [hthis]
  by_cases hk : k = n
  · subst hk
    exact .inl (by rw [Function.update_self, Function.update_self])
  · rw [Function.update_of_ne hk, Function.update_of_ne hk]
    exact hm k

theorem lookup_loop (h : Mended s ids) (s' : PtrMultiListBase α) (hiterators : s'.iterators = s.iterators)
    (hcursors : s'.cursors = s.cursors) {body : Cursor → Cursor} (hnull : body ⟨none, none⟩ = ⟨none, none⟩)
    (i : IterId) : (s'.forIterators body).cursors.lookup i = (s.cursors.lookup i).map body := by
  obtain ⟨back, its, hwf, -⟩ := h
  have hits : IteratorsOk s'.iterators s'.cursors its := by
    rw [hiterators, hcursors]
    exact hwf.iterators
  rw [lookup_forIterators hits hnull, hcursors]

theorem insertBefore {a b : List NodeId} {item : NodeId} (h : Mended s (a ++ item :: b)) (hfresh : s.Fresh item)
    {n : NodeId} (hn : n ∉ s.m_data.keys) (x : α) :
    ∃ s', s.insertBefore item n x = some s' ∧
      (∀ i, s'.cursors.lookup i = (s.cursors.lookup i).map (rewriteCursor item n)) ∧
      Mended s' (a ++ n :: item :: b) := by
  have hmended := h
  obtain ⟨back, its, hwf, hm⟩ := h
  obtain ⟨p, hp, hback⟩ := back_of_fresh hwf hm (by simp) hfresh
  obtain ⟨t, ht, -, -, hwf'⟩ := hwf.insertBefore hn x
  have hs : s.insertBefore item n x = some (s.insertedNode item n p x) := by
    rw [insertBefore_withBack hp hback, Option.map_eq_some_iff] at ht
    obtain ⟨s', hs', -⟩ := ht
    rw [insertBefore_eq, hp] at hs' ⊢
    simp only [Option.bind_some] at hs' ⊢
    obtain ⟨u, hu, hs'⟩ := Option.bind_eq_some_iff.mp hs'
    obtain ⟨v, hv, hs'⟩ := Option.bind_eq_some_iff.mp hs'
    obtain ⟨w, hw, hs'⟩ := Option.bind_eq_some_iff.mp hs'
    simp [hu, hv, hw]
  rw [insertBefore_withBack hp hback, hs, Option.map_some, Option.some.injEq] at ht
  subst ht
  refine ⟨_, hs, fun i => ?_, _, its, hwf', fun k => ?_⟩
  · exact hmended.lookup_loop { s with
      m_data := s.m_data.insert n x
      nodes := (((s.nodes.write (.next n) (some item)).setPThis n (some p)).write p (some n)).setPThis item
        (some (.next n)) } rfl rfl (by simp [rewriteCursor]) i
  · have hthis : (s.insertedNode item n p x).nodes.pThis = backAfterInsertion s.nodes.pThis item n p := by
      cases p <;> rfl
    rw [hthis, backAfterInsertion, backAfterInsertion]
    by_cases hitem : k = item
    · subst hitem
      exact .inl (by rw [Function.update_self, Function.update_self])
    · rw [Function.update_of_ne hitem, Function.update_of_ne hitem]
      by_cases hk : k = n
      · subst hk
        exact .inl (by rw [Function.update_self, Function.update_self])
      · rw [Function.update_of_ne hk, Function.update_of_ne hk]
        exact hm k

theorem removeNode {a b : List NodeId} {item : NodeId} (h : Mended s (a ++ item :: b)) (hfresh : s.Fresh item) :
    ∃ s', s.removeNode item = some s' ∧
      (∀ i, s'.cursors.lookup i = (s.cursors.lookup i).map (eraseCursor item b.head?)) ∧ Mended s' (a ++ b) := by
  have hmended := h
  have hnext := h.next_eq
  obtain ⟨back, its, hwf, hm⟩ := h
  obtain ⟨p, hp, hback⟩ := back_of_fresh hwf hm (by simp) hfresh
  obtain ⟨t, ht, -, -, hwf'⟩ := hwf.removeNode
  have hs : s.removeNode item = some (s.removedNode item p) := by
    rw [removeNode_withBack hp hback, Option.map_eq_some_iff] at ht
    obtain ⟨s', hs', -⟩ := ht
    rw [removeNode_eq, hp] at hs' ⊢
    simp only [Option.bind_some] at hs' ⊢
    obtain ⟨u, hu, hs'⟩ := Option.bind_eq_some_iff.mp hs'
    obtain ⟨v, hv, hs'⟩ := Option.bind_eq_some_iff.mp hs'
    simp [hu, hv]
  rw [removeNode_withBack hp hback, hs, Option.map_some, Option.some.injEq] at ht
  subst ht
  refine ⟨_, hs, fun i => ?_, _, its, hwf', fun k => ?_⟩
  · rw [← hnext]
    exact hmended.lookup_loop s rfl rfl (by simp [eraseCursor]) i
  · have hthis : (s.removedNode item p).nodes.pThis = backAfterRemoval s.nodes.pThis p (s.nodes.next item) := by
      show (s.nodes.unlinkFrom p item).pThis = _
      unfold Links.unlinkFrom
      cases s.nodes.next item <;> cases p <;> rfl
    rw [hthis]
    cases s.nodes.next item with
    | none => exact hm k
    | some m =>
      rw [backAfterRemoval, backAfterRemoval]
      by_cases hk : k = m
      · subst hk
        exact .inl (by rw [Function.update_self, Function.update_self])
      · rw [Function.update_of_ne hk, Function.update_of_ne hk]
        exact hm k

theorem pushFrontNew_empty (h : Mended s ([] : List NodeId)) (n : NodeId) (x : α) :
    s.pushFrontNew n x = s.insertAtEnd n x := by
  have hfirst := h.first_eq
  obtain ⟨back, its, hwf, -⟩ := h
  have hlast : s.m_pLastNode = .first := hwf.nodes.last
  have hderefs : s.derefs (slotNode .first) = some () := if_pos (by simp [slotNode])
  unfold PtrMultiListBase.pushFrontNew PtrMultiListBase.insertAtEnd
  rw [hfirst, hlast, hderefs, List.head?_nil, if_pos rfl]
  cases s.newNode n <;> rfl

theorem rewriteCursor_front {back : NodeId → Option (Slot NodeId)} {f : NodeId} {its : List IterId}
    (hwf : WellFormed (s.withBack back) (f :: ids) its) (n : NodeId) {i : IterId} {c : Cursor}
    (hc : s.cursors.lookup i = some c) : rewriteCursor f n c = c := by
  refine if_neg ?_
  rintro ⟨hitem, hnext⟩
  obtain ⟨y, hy⟩ := Option.ne_none_iff_exists'.mp hitem
  have hok := hwf.cursors hc
  have hback : (s.withBack back).nodes.pThis f = some .first := hwf.nodes.listed.path.2.1
  have hslot := slot_of_next hwf.nodes.listed (hok.item hy) (hok.adjacent hy hnext)
  rw [hback] at hslot
  cases hslot

theorem pushFrontNew (h : Mended s ids) {n : NodeId} (hn : n ∉ s.m_data.keys) (x : α) :
    ∃ s', s.pushFrontNew n x = some s' ∧ s'.cursors = s.cursors ∧ Mended s' (n :: ids) := by
  cases ids with
  | nil =>
    rw [h.pushFrontNew_empty]
    exact h.insertAtEnd hn x
  | cons f ids =>
    have hmended := h
    have hfirst := h.first_eq
    obtain ⟨back, its, hwf, hm⟩ := h
    have hnew : s.newNode n = some () := (hwf.newNode_eq hn).1
    have hback : back f = some .first := hwf.nodes.listed.path.2.1
    obtain ⟨p, hp, hp'⟩ := back_of_fresh hwf hm List.mem_cons_self hmended.fresh_head
    obtain rfl : p = .first := Option.some.inj (hp'.symm.trans hback)
    -- the old first node, if it knew, would be one before which the new one is inserted
    obtain ⟨t, ht, -, -, hwf'⟩ := hwf.insertBefore (a := []) hn x
    have ht : t = (s.withBack back).insertedNode f n .first x := by
      rw [insertBefore_eq, hwf.nodes.derefs_eq (by simp), show (s.withBack back).newNode n = some () from hnew,
        show (s.withBack back).nodes.pThis f = some .first from hback] at ht
      exact (Option.some.inj ht).symm
    have hcursors : t.cursors = s.cursors := by
      refine Finmap.ext_lookup fun i => ?_
      rw [ht]
      refine (hmended.lookup_loop { s.withBack back with
        m_data := s.m_data.insert n x
        nodes := ((((s.withBack back).nodes.write (.next n) (some f)).setPThis n (some .first)).write .first
          (some n)).setPThis f (some (.next n)) } rfl rfl (by simp [rewriteCursor]) i).trans ?_
      cases hc : s.cursors.lookup i with
      | none => rfl
      | some c => exact congrArg some (rewriteCursor_front hwf n hc)
    refine ⟨{ s with
      m_data := s.m_data.insert n x
      nodes := ((s.nodes.write (.next n) s.nodes.first).setPThis n (some .first)).write .first (some n) }, ?_, rfl,
      backAfterInsertion back f n .first, its, ?_, fun k => ?_⟩
    · unfold PtrMultiListBase.pushFrontNew
      rw [hnew, hfirst]
      rfl
    · have hsame : t = withBack { s with
          m_data := s.m_data.insert n x
          nodes := ((s.nodes.write (.next n) s.nodes.first).setPThis n (some .first)).write .first (some n) }
          (backAfterInsertion back f n .first) := by
        have ht' : t = { t with cursors := s.cursors } := by rw [← hcursors]
        rw [ht', ht, hfirst]
        rfl
      rw [← hsame]
      exact hwf'
    · show _ = Function.update s.nodes.pThis n (some .first) k ∨
        Function.update s.nodes.pThis n (some .first) k = some .first
      rw [backAfterInsertion]
      by_cases hk : k = n
      · subst hk
        exact .inr (Function.update_self ..)
      · rw [Function.update_of_ne hk]
        by_cases hkf : k = f
        · subst hkf
          exact .inr hp
        · rw [Function.update_of_ne hkf, Function.update_of_ne hk]
          exact hm k

theorem newIterator (h : Mended s ids) {i : IterId} (hi : i ∉ s.cursors.keys) {item : Option NodeId}
    (hitem : ∀ x ∈ item, x ∈ ids) :
    ∃ s', s.newIterator i item = some s' ∧ s'.nodes = s.nodes ∧
      s'.cursors = s.cursors.insert i ⟨item, item.bind s.nodes.next⟩ ∧ Mended s' ids := by
  obtain ⟨s', hs', hmended⟩ := h.of_keeps (·.newIterator i item) (fun _ => newIterator_withBack i item)
    fun hwf => hwf.keeps_newIterator hi hitem
  obtain ⟨back, its, hwf, -⟩ := h
  have hderefs : s.derefs item.toList = some () := hwf.nodes.derefs_eq fun n hn => hitem n (Option.mem_toList.mp hn)
  have hnew : s.newIterator i item = some { s with
      cursors := s.cursors.insert i ⟨item, item.bind s.nodes.next⟩
      iterators := s.iterators.linkAt .first i } := by
    unfold PtrMultiListBase.newIterator
    rw [if_neg hi, hderefs]
    rfl
  have hsame := Option.some.inj (hs'.symm.trans hnew)
  exact ⟨s', hs', by rw [hsame], by rw [hsame], hmended⟩

theorem extractElement (h : Mended s ids) {iter : IterId} {c : Cursor} (hc : s.cursors.lookup iter = some c)
    (hfresh : ∀ x ∈ c.m_item, s.Fresh x) :
    ∃ data s', s.extractElement iter = some (data, s') ∧
      match c.m_item with
      | none => s' = s
      | some x => ∃ a b, ids = a ++ x :: b ∧
          (∀ i, s'.cursors.lookup i = (s.cursors.lookup i).map (eraseCursor x b.head?)) ∧ Mended s' (a ++ b) := by
  cases hitem : c.m_item with
  | none => exact ⟨none, s, WellFormed.extractElement_null s hc hitem, rfl⟩
  | some x =>
    obtain ⟨a, b, rfl⟩ := List.append_of_mem ((h.cursorOk hc).item hitem)
    obtain ⟨s', hs', hcursors, hmended⟩ := h.removeNode (hfresh x hitem)
    exact ⟨_, s', WellFormed.extractElement_item hc hitem hs', a, b, rfl, hcursors, hmended⟩

theorem destroyIterator (h : Mended s ids) {i : IterId} (hi : i ∈ s.cursors.keys) :
    ∃ s', s.destroyIterator i = some s' ∧ s'.cursors = s.cursors.erase i ∧ Mended s' ids := by
  obtain ⟨s', hs', hmended⟩ := h.of_keeps (·.destroyIterator i) (fun _ => destroyIterator_withBack i)
    fun hwf => hwf.keeps_destroyIterator hi
  obtain ⟨c, hc⟩ := Container.mem_keys_iff.mp hi
  have hdestroy : s.destroyIterator i = some { s with
      cursors := s.cursors.erase i
      iterators := unlink s.iterators i } := by
    unfold PtrMultiListBase.destroyIterator
    rw [hc]
    rfl
  have hsame := Option.some.inj (hs'.symm.trans hdestroy)
  exact ⟨s', hs', by rw [hsame], hmended⟩

/-- What the loop over the iterators of `extractFront` does to one of them. -/
def eraseHead : List NodeId → Cursor → Cursor
  | [], c => c
  | x :: ids, c => eraseCursor x ids.head? c

theorem extractFront (h : Mended s ids) {tmp : IterId} (htmp : tmp ∉ s.cursors.keys) :
    ∃ data s', s.extractFront tmp = some (data, s') ∧ Mended s' ids.tail ∧
      ∀ i, s'.cursors.lookup i = if i = tmp then none else (s.cursors.lookup i).map (eraseHead ids) := by
  have hfirst := h.first_eq
  have hitem : ∀ x ∈ s.nodes.first, x ∈ ids := fun x hx => List.mem_of_head? (hfirst ▸ hx)
  obtain ⟨s₁, hs₁, hnodes, hcursors, hmended⟩ := h.newIterator htmp hitem
  have hlookup : s₁.cursors.lookup tmp = some ⟨s.nodes.first, s.nodes.first.bind s.nodes.next⟩ := by
    rw [hcursors, Finmap.lookup_insert]
  have hfresh : ∀ x ∈ s.nodes.first, s₁.Fresh x := by
    intro x hx
    rw [hfirst] at hx
    obtain ⟨rest, rfl⟩ := List.head?_eq_some_iff.mp hx
    exact hmended.fresh_head
  obtain ⟨data, s₂, hs₂, hresult⟩ := hmended.extractElement hlookup hfresh
  have hextracted : Mended s₂ ids.tail ∧ ∀ i, s₂.cursors.lookup i = (s₁.cursors.lookup i).map (eraseHead ids) := by
    dsimp only at hresult
    cases ids with
    | nil =>
      rw [hfirst] at hresult
      have hresult : s₂ = s₁ := hresult
      subst hresult
      exact ⟨hmended, fun i => by cases s₂.cursors.lookup i <;> rfl⟩
    | cons x ids =>
      rw [hfirst] at hresult
      obtain ⟨a, b, hids, hlookups, hm⟩ := hresult
      cases a with
      | nil =>
        obtain ⟨-, rfl⟩ := List.cons.inj hids
        exact ⟨hm, hlookups⟩
      | cons y a =>
        obtain ⟨rfl, rfl⟩ := List.cons.inj hids
        exact absurd hmended.nodup (by simp)
  obtain ⟨hm, hlookups⟩ := hextracted
  have hmem : tmp ∈ s₂.cursors.keys := Container.mem_keys_iff.mpr ⟨_, by rw [hlookups, hlookup]; rfl⟩
  obtain ⟨s', hs', hcursors', hm'⟩ := hm.destroyIterator hmem
  refine ⟨data, s', ?_, hm', fun i => ?_⟩
  · unfold PtrMultiListBase.extractFront beginIterator
    rw [hs₁]
    dsimp only [Option.bind_eq_bind, Option.bind_some]
    rw [hs₂]
    dsimp only [Option.bind_eq_bind, Option.bind_some]
    rw [hs']
    rfl
  · rw [hcursors']
    split
    · next hi => rw [hi, Finmap.lookup_erase]
    · next hi => rw [Finmap.lookup_erase_ne hi, hlookups, hcursors, Finmap.lookup_insert_of_ne _ hi]

theorem deleter (h : Mended s ids) (data : Option α) : Mended (s.deleter data) ids := by
  obtain ⟨back, its, hwf, hm⟩ := h
  exact ⟨back, its, hwf.deleter data, hm⟩

theorem clearLoop (h : Mended s ids) {tmp : IterId} (htmp : tmp ∉ s.cursors.keys) {fuel : Nat}
    (hfuel : ids.length ≤ fuel) : ∃ s', s.clearLoop tmp fuel = some s' ∧ Mended s' [] := by
  induction fuel generalizing s ids with
  | zero =>
    obtain rfl : ids = [] := List.length_eq_zero_iff.mp (by omega)
    have hfirst : s.nodes.first = none := h.first_eq
    exact ⟨s, by unfold PtrMultiListBase.clearLoop; rw [hfirst], h⟩
  | succ fuel ih =>
    have hfirst := h.first_eq
    unfold PtrMultiListBase.clearLoop
    cases ids with
    | nil =>
      rw [hfirst]
      exact ⟨s, rfl, h⟩
    | cons x ids =>
      obtain ⟨data, s₁, hs₁, hmended, hlookup⟩ := h.extractFront htmp
      have htmp₁ : tmp ∉ s₁.cursors.keys := by
        intro hmem
        obtain ⟨c, hc⟩ := Container.mem_keys_iff.mp hmem
        rw [hlookup, if_pos rfl] at hc
        cases hc
      obtain ⟨s', hs', hm⟩ := ih (hmended.deleter data) htmp₁ (by simpa using hfuel)
      refine ⟨s', ?_, hm⟩
      rw [hfirst]
      dsimp only [List.head?_cons]
      rw [hs₁]
      exact hs'

theorem invalidateAllIterators (h : Mended s ids) :
    ∃ s', s.invalidateAllIterators = some s' ∧ s'.cursors.keys = s.cursors.keys ∧ Mended s' ids ∧
      ∀ i c, s'.cursors.lookup i = some c → c = ⟨none, none⟩ := by
  obtain ⟨back, its, hwf, hm⟩ := h
  have hsame (b : NodeId → Option (Slot NodeId)) :
      (s.withBack b).invalidateAllIterators = s.invalidateAllIterators.map (·.withBack b) := invalidateLoop_withBack _
  obtain ⟨t, ht, -, -, hkeys, hwf'⟩ := hwf.invalidateAllIterators
  rw [hsame, Option.map_eq_some_iff] at ht
  obtain ⟨s', hs', rfl⟩ := ht
  have hthis : s'.nodes.pThis = s.nodes.pThis := by
    have hself := hsame s.nodes.pThis
    rw [withBack_self, hs', Option.map_some, Option.some.injEq] at hself
    rw [hself]
    rfl
  refine ⟨s', hs', hkeys, ⟨back, [], hwf', fun n => ?_⟩, fun i c hc => ?_⟩
  · rw [hthis]
    exact hm n
  · exact (hwf'.iterators.unlinked hc List.not_mem_nil).2

theorem clear (h : Mended s ids) {tmp : IterId} (htmp : tmp ∉ s.cursors.keys) :
    ∃ s', s.clear tmp = some s' ∧ Mended s' [] := by
  obtain ⟨s₁, hs₁, hkeys, hmended, -⟩ := h.invalidateAllIterators
  have hfuel : ids.length ≤ s₁.m_data.keys.card := by
    obtain ⟨back, its, hwf, -⟩ := hmended
    rw [show s₁.m_data.keys = ids.toFinset from hwf.nodes.keys, List.toFinset_card_of_nodup hwf.nodes.listed.nodup]
  obtain ⟨s', hs', hm⟩ := hmended.clearLoop (hkeys ▸ htmp) hfuel
  refine ⟨s', ?_, hm⟩
  unfold PtrMultiListBase.clear
  rw [hs₁]
  exact hs'

end Mended

end PtrMultiListBase

end Afl.Container
