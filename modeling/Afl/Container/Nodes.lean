import Afl.Container.WellFormed

/-!
# Operations on the nodes of a `PtrMultiListBase`

Inserting, removing and swapping elements keep the invariant. Each result gives the new sequence of nodes and
the new data, from which the element sequence follows.
-/

namespace Afl.Container

open Intrusive PtrMultiListBase

theorem slot_of_next {L : Links NodeId} {ids : List NodeId} (h : L.Listed ids) {x y : NodeId} (hx : x ∈ ids)
    (hnext : L.next x = some y) : L.pThis y = some (.next x) := by
  obtain ⟨a, b, rfl⟩ := List.append_of_mem hx
  rw [h.next_eq] at hnext
  cases b with
  | nil => simp at hnext
  | cons m b =>
    cases hnext
    have hsplit : L.Listed ((a ++ [x]) ++ y :: b) := by simpa using h
    have hback := hsplit.pThis_eq
    rwa [endSlot_append] at hback

/-! ### The loop over the iterators -/

theorem lookup_foldl_updateCursor (body : Cursor → Cursor) {l : List IterId} (hl : l.Nodup)
    (m : Finmap fun _ : IterId => Cursor) (i : IterId) :
    (l.foldl (updateCursor body) m).lookup i =
      if i ∈ l then (m.lookup i).map body else m.lookup i := by
  induction l generalizing m with
  | nil => simp
  | cons j l ih =>
    obtain ⟨hj, hl⟩ := List.nodup_cons.mp hl
    rw [List.foldl_cons, ih hl, updateCursor]
    by_cases hij : i = j
    · subst hij
      rw [if_neg hj, if_pos List.mem_cons_self]
      cases hm : m.lookup i with
      | none => simp [hm]
      | some c => simp [Finmap.lookup_insert]
    · cases hm : m.lookup j with
      | none => simp [hij]
      | some c => simp [hij, Finmap.lookup_insert_of_ne _ hij]

theorem lookup_forIterators {α : Type} {s : PtrMultiListBase α} {its : List IterId}
    (h : IteratorsOk s.iterators s.cursors its) {body : Cursor → Cursor}
    (hnull : body ⟨none, none⟩ = ⟨none, none⟩) (i : IterId) :
    (s.forIterators body).cursors.lookup i = (s.cursors.lookup i).map body := by
  unfold PtrMultiListBase.forIterators
  dsimp only
  rw [h.listed.walk_eq h.length_le, lookup_foldl_updateCursor body h.listed.nodup]
  split
  · rfl
  · rename_i hi
    cases hc : s.cursors.lookup i with
    | none => rfl
    | some c => rw [(h.unlinked hc hi).2, Option.map_some, hnull]

theorem keys_forIterators {α : Type} {s : PtrMultiListBase α} {its : List IterId}
    (h : IteratorsOk s.iterators s.cursors its) {body : Cursor → Cursor}
    (hnull : body ⟨none, none⟩ = ⟨none, none⟩) : (s.forIterators body).cursors.keys = s.cursors.keys := by
  ext i
  rw [mem_keys_iff, mem_keys_iff, lookup_forIterators h hnull]
  simp

theorem iteratorsOk_forIterators {α : Type} {s : PtrMultiListBase α} {its : List IterId}
    (h : IteratorsOk s.iterators s.cursors its) {body : Cursor → Cursor}
    (hnull : body ⟨none, none⟩ = ⟨none, none⟩) :
    IteratorsOk s.iterators (s.forIterators body).cursors its := by
  refine h.of_cursors (keys_forIterators h hnull) fun hc _ hold => ?_
  rw [lookup_forIterators h hnull, hold, Option.map_some, Option.some.injEq] at hc
  rw [← hc, hnull]

namespace WellFormed

variable {α : Type} {s : PtrMultiListBase α} {ids : List NodeId} {its : List IterId}

/-! ### Insertion -/

theorem newNode_eq (h : WellFormed s ids its) {n : NodeId} (hn : n ∉ s.m_data.keys) :
    s.newNode n = some () ∧ n ∉ ids := by
  refine ⟨if_neg hn, fun hmem => hn ?_⟩
  rw [h.nodes.keys, List.mem_toFinset]
  exact hmem

theorem slotNode_endSlot {a : List NodeId} : ∀ n ∈ slotNode (endSlot .first a), n ∈ a := by
  cases a with
  | nil => intro n hn; simp [endSlot, slotNode] at hn
  | cons k a =>
    obtain ⟨m, hm, heq⟩ := @endSlot_eq_next _ k a
    intro n hn
    rw [endSlot, heq, slotNode, List.mem_singleton] at hn
    exact hn ▸ hm

theorem insertAtEnd (h : WellFormed s ids its) {n : NodeId} (hn : n ∉ s.m_data.keys) (x : α) :
    ∃ s', s.insertAtEnd n x = some s' ∧ s'.m_data = s.m_data.insert n x ∧ s'.cursors = s.cursors ∧
      WellFormed s' (ids ++ [n]) its := by
  obtain ⟨hnew, hids⟩ := h.newNode_eq hn
  have hlink : (s.nodes.linkAt (endSlot .first ids) n).Listed (ids ++ [n]) := by
    have hsplit : s.nodes.Listed (ids ++ []) := by simpa using h.nodes.listed
    exact hsplit.linkAt (by simpa using hids)
  have hnone : s.nodes.read (endSlot .first ids) = none := h.nodes.listed.last
  refine ⟨{ s with
    m_data := s.m_data.insert n x
    nodes := s.nodes.linkAt (endSlot .first ids) n
    m_pLastNode := .next n }, ?_, rfl, rfl, ⟨hlink, ?_, ?_⟩, h.iterators, fun {i c} hc => ?_⟩
  · unfold PtrMultiListBase.insertAtEnd
    rw [hnew]
    dsimp only [Option.bind_eq_bind, Option.bind_some]
    rw [h.nodes.derefs_eq (h.nodes.last ▸ slotNode_endSlot), h.nodes.last, Links.linkAt, hnone]
    rfl
  · rw [endSlot_append]
    rfl
  · rw [keys_insert, h.nodes.keys, List.toFinset_append]
    ext k
    simp
  · have hok := h.cursors hc
    refine ⟨fun hx => ?_, fun hy => ?_, fun {x y} hx hy => ?_⟩
    · exact List.mem_append_left _ (hok.item hx)
    · exact List.mem_append_left _ (hok.nextItem hy)
    · have hnext := hok.adjacent hx hy
      have hslot : (.next x : Slot NodeId) ≠ endSlot .first ids := by
        intro heq
        rw [← heq] at hnone
        rw [show s.nodes.next x = none from hnone] at hnext
        cases hnext
      have hxn : (.next x : Slot NodeId) ≠ .next n := by
        intro heq
        cases heq
        exact hids (hok.item hx)
      show Links.read _ (.next x) = some y
      rw [Links.read_linkAt_of_ne _ hslot hxn]
      exact hnext

theorem cursorOk_rewrite {L : Links NodeId} {a b : List NodeId} {item n : NodeId} (h : L.Listed (a ++ item :: b))
    (hn : n ∉ a ++ item :: b) {c : Cursor} (hc : CursorOk L (a ++ item :: b) c) :
    CursorOk (L.linkAt (endSlot .first a) n) (a ++ n :: item :: b) (rewriteCursor item n c) := by
  have hmem : ∀ {x}, x ∈ a ++ item :: b → x ∈ a ++ n :: item :: b := by
    intro x hx
    simp only [List.mem_append, List.mem_cons] at hx ⊢
    tauto
  have hread : L.read (endSlot .first a) = some item := h.read_endSlot
  unfold rewriteCursor
  split
  · rename_i hcond
    refine ⟨fun hx => hmem (hc.item hx), fun hy => ?_, fun {x y} hx hy => ?_⟩
    · cases hy
      simp
    · cases hy
      have hback := slot_of_next h (hc.item hx) (hc.adjacent hx hcond.2)
      rw [h.pThis_eq, Option.some.injEq] at hback
      rw [hback]
      exact Links.read_linkAt_self L (.next x) n
  · rename_i hcond
    refine ⟨fun hx => hmem (hc.item hx), fun hy => hmem (hc.nextItem hy), fun {x y} hx hy => ?_⟩
    have hnext := hc.adjacent hx hy
    have hslot : (.next x : Slot NodeId) ≠ endSlot .first a := by
      intro heq
      rw [← heq] at hread
      rw [show L.next x = some item from hread] at hnext
      exact hcond ⟨by rw [hx]; exact Option.some_ne_none x, by rw [hy, ← hnext]⟩
    have hxn : (.next x : Slot NodeId) ≠ .next n := by
      intro heq
      cases heq
      exact hn (hc.item hx)
    show Links.read _ (.next x) = some y
    rw [Links.read_linkAt_of_ne _ hslot hxn]
    exact hnext

theorem insertBefore {a b : List NodeId} {item : NodeId} (h : WellFormed s (a ++ item :: b) its) {n : NodeId}
    (hn : n ∉ s.m_data.keys) (x : α) :
    ∃ s', s.insertBefore item n x = some s' ∧ s'.m_data = s.m_data.insert n x ∧
      s'.cursors.keys = s.cursors.keys ∧ WellFormed s' (a ++ n :: item :: b) its := by
  obtain ⟨hnew, hids⟩ := h.newNode_eq hn
  have hback := h.nodes.listed.pThis_eq
  have hread : s.nodes.read (endSlot .first a) = some item := h.nodes.listed.read_endSlot
  have hlink := h.nodes.listed.linkAt hids
  have hnull : rewriteCursor item n ⟨none, none⟩ = ⟨none, none⟩ := by
    simp [rewriteCursor]
  have hiters := iteratorsOk_forIterators (s := { s with
    m_data := s.m_data.insert n x
    nodes := s.nodes.linkAt (endSlot .first a) n }) h.iterators hnull
  refine ⟨forIterators { s with
    m_data := s.m_data.insert n x
    nodes := s.nodes.linkAt (endSlot .first a) n } (rewriteCursor item n), ?_, rfl, ?_, ⟨hlink, ?_, ?_⟩, hiters,
    fun {i c} hc => ?_⟩
  · unfold PtrMultiListBase.insertBefore
    rw [hnew]
    dsimp only [Option.bind_eq_bind, Option.bind_some]
    rw [h.nodes.derefs_eq (by simp), hback]
    dsimp only [Option.bind_eq_bind, Option.bind_some]
    rw [h.nodes.derefs_eq fun m hm => List.mem_append_left _ (slotNode_endSlot m hm), Links.linkAt, hread]
    rfl
  · exact keys_forIterators (s := { s with
      m_data := s.m_data.insert n x
      nodes := s.nodes.linkAt (endSlot .first a) n }) h.iterators hnull
  · show s.m_pLastNode = _
    rw [h.nodes.last, endSlot_append, endSlot_append]
    rfl
  · show (s.m_data.insert n x).keys = _
    rw [keys_insert, h.nodes.keys]
    ext k
    simp only [Finset.mem_insert, List.mem_toFinset, List.mem_append, List.mem_cons]
    tauto
  · rw [lookup_forIterators (s := { s with
      m_data := s.m_data.insert n x
      nodes := s.nodes.linkAt (endSlot .first a) n }) h.iterators hnull, Option.map_eq_some_iff] at hc
    obtain ⟨d, hd, rfl⟩ := hc
    exact cursorOk_rewrite h.nodes.listed hids (h.cursors hd)

/-! ### Removal -/

theorem cursorOk_erase {L : Links NodeId} {a b : List NodeId} {item : NodeId} (h : L.Listed (a ++ item :: b))
    {c : Cursor} (hc : CursorOk L (a ++ item :: b) c) :
    CursorOk (L.unlinkFrom (endSlot .first a) item) (a ++ b) (eraseCursor item (L.next item) c) := by
  have hmem : ∀ {x}, x ∈ a ++ item :: b → x ≠ item → x ∈ a ++ b := by
    intro x hx hne
    simp only [List.mem_append, List.mem_cons] at hx ⊢
    tauto
  have hread : L.read (endSlot .first a) = some item := h.read_endSlot
  have hnextMem : ∀ {y}, L.next item = some y → y ∈ a ++ b := by
    intro y hy
    rw [h.next_eq] at hy
    exact List.mem_append_right _ (List.mem_of_head? hy)
  unfold eraseCursor
  split
  · rename_i hitem
    refine ⟨fun hx => (Option.some_ne_none _ hx.symm).elim, fun hy => ?_, fun hx => (Option.some_ne_none _ hx.symm).elim⟩
    exact hnextMem (hc.adjacent hitem hy)
  · rename_i hitem
    split
    · rename_i hnext
      refine ⟨fun {x} hx => ?_, fun hy => hnextMem hy, fun {x y} hx hy => ?_⟩
      · exact hmem (hc.item hx) fun heq => hitem (by rw [← heq]; exact hx)
      · have hback := slot_of_next h (hc.item hx) (hc.adjacent hx hnext)
        rw [h.pThis_eq, Option.some.injEq] at hback
        rw [hback]
        exact (Links.read_unlinkFrom_self L (.next x) item).trans hy
    · rename_i hnext
      refine ⟨fun {x} hx => ?_, fun {y} hy => ?_, fun {x y} hx hy => ?_⟩
      · exact hmem (hc.item hx) fun heq => hitem (by rw [← heq]; exact hx)
      · exact hmem (hc.nextItem hy) fun heq => hnext (by rw [← heq]; exact hy)
      · have hxy := hc.adjacent hx hy
        have hslot : (.next x : Slot NodeId) ≠ endSlot .first a := by
          intro heq
          rw [← heq] at hread
          rw [show L.next x = some item from hread] at hxy
          exact hnext (by rw [hy, ← hxy])
        show Links.read _ (.next x) = some y
        rw [Links.read_unlinkFrom_of_ne _ hslot]
        exact hxy

theorem removeNode {a b : List NodeId} {item : NodeId} (h : WellFormed s (a ++ item :: b) its) :
    ∃ s', s.removeNode item = some s' ∧ s'.m_data = s.m_data.erase item ∧
      s'.cursors.keys = s.cursors.keys ∧ WellFormed s' (a ++ b) its := by
  have hnull : eraseCursor item (s.nodes.next item) ⟨none, none⟩ = ⟨none, none⟩ := by simp [eraseCursor]
  have hback := h.nodes.listed.pThis_eq
  have hnext := h.nodes.listed.next_eq
  have hitem : ∀ m ∈ [item], m ∈ a ++ item :: b := by simp
  have htail : ∀ m ∈ slotNode (endSlot .first a) ++ (s.nodes.next item).toList, m ∈ a ++ item :: b := by
    intro m hm
    rcases List.mem_append.mp hm with hm | hm
    · exact List.mem_append_left _ (slotNode_endSlot m hm)
    · rw [Option.mem_toList, hnext] at hm
      simp [List.mem_of_head? hm]
  have hkept : NodesOk (s.forIterators (eraseCursor item (s.nodes.next item))) (a ++ item :: b) :=
    h.nodes.of_eq rfl rfl rfl
  refine ⟨{ s.forIterators (eraseCursor item (s.nodes.next item)) with
    nodes := s.nodes.unlinkFrom (endSlot .first a) item
    m_pLastNode := if s.nodes.next item = none then endSlot .first a else s.m_pLastNode
    m_data := s.m_data.erase item }, ?_, rfl, keys_forIterators h.iterators hnull,
    ⟨h.nodes.listed.unlinkFrom, ?_, ?_⟩, iteratorsOk_forIterators h.iterators hnull, fun {i c} hc => ?_⟩
  · unfold PtrMultiListBase.removeNode
    rw [h.nodes.derefs_eq hitem]
    show (s.nodes.pThis item >>= _) = _
    rw [hback]
    dsimp only [Option.bind_eq_bind, Option.bind_some]
    have hderefs := hkept.derefs_eq htail
    rw [show (s.forIterators (eraseCursor item (s.nodes.next item))).nodes = s.nodes from rfl, hderefs]
    rfl
  · show (if s.nodes.next item = none then endSlot .first a else s.m_pLastNode) = _
    rw [hnext, h.nodes.last, endSlot_append, endSlot_append]
    cases b with
    | nil => simp [endSlot]
    | cons m b => simp [endSlot]
  · show (s.m_data.erase item).keys = _
    have hnotMem : item ∉ a ++ b := (List.nodup_cons.mp (List.perm_middle.nodup_iff.mp h.nodes.listed.nodup)).1
    rw [Finmap.keys_erase, h.nodes.keys]
    ext k
    simp only [Finset.mem_erase, List.mem_toFinset, List.mem_append, List.mem_cons] at hnotMem ⊢
    constructor
    · tauto
    · intro hk
      have hne : k ≠ item := fun heq => hnotMem (heq ▸ hk)
      tauto
  · change (s.forIterators _).cursors.lookup i = some c at hc
    rw [lookup_forIterators h.iterators hnull, Option.map_eq_some_iff] at hc
    obtain ⟨d, hd, rfl⟩ := hc
    exact cursorOk_erase h.nodes.listed (h.cursors hd)

end WellFormed

end Afl.Container
