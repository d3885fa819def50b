import Afl.Container.PtrMultiList
import Afl.Lib.Finmap

/-!
# Well-formed lists and their iterators

The invariant of `PtrMultiListBase`: the nodes form the sequence `ids`, the registered iterators the sequence
`its`, and every iterator points at nodes of the list. An iterator at an element knows the element after it,
or none if that one was appended later. The operations on iterators keep the invariant and the nodes.
-/

namespace Afl.Container

open Intrusive

/-- What a cursor may point at. -/
structure CursorOk (nodes : Links NodeId) (ids : List NodeId) (c : Cursor) : Prop where
  item : ∀ {x}, c.m_item = some x → x ∈ ids
  nextItem : ∀ {y}, c.m_nextItem = some y → y ∈ ids
  adjacent : ∀ {x y}, c.m_item = some x → c.m_nextItem = some y → nodes.next x = some y

theorem cursorOk_null (nodes : Links NodeId) (ids : List NodeId) : CursorOk nodes ids ⟨none, none⟩ :=
  ⟨fun h => (Option.some_ne_none _ h.symm).elim, fun h => (Option.some_ne_none _ h.symm).elim,
    fun h => (Option.some_ne_none _ h.symm).elim⟩

/-- The registered iterators are the sequence `its`; all others are null. -/
structure IteratorsOk (iterators : Links IterId) (cursors : Finmap fun _ : IterId => Cursor) (its : List IterId) :
    Prop where
  listed : iterators.Listed its
  exist : ∀ {i}, i ∈ its → i ∈ cursors.keys
  unlinked : ∀ {i c}, cursors.lookup i = some c → i ∉ its → iterators.pThis i = none ∧ c = ⟨none, none⟩

/-- The nodes are the sequence `ids`. -/
structure NodesOk {α : Type} (s : PtrMultiListBase α) (ids : List NodeId) : Prop where
  listed : s.nodes.Listed ids
  last : s.m_pLastNode = endSlot .first ids
  keys : s.m_data.keys = ids.toFinset

structure WellFormed {α : Type} (s : PtrMultiListBase α) (ids : List NodeId) (its : List IterId) : Prop where
  nodes : NodesOk s ids
  iterators : IteratorsOk s.iterators s.cursors its
  cursors : ∀ {i c}, s.cursors.lookup i = some c → CursorOk s.nodes ids c

theorem mem_keys_iff {β : Type} {m : Finmap fun _ : Nat => β} {i : Nat} : i ∈ m.keys ↔ ∃ b, m.lookup i = some b := by
  rw [Finmap.mem_keys, Finmap.mem_iff]

theorem keys_insert {β : Type} (m : Finmap fun _ : Nat => β) (i : Nat) (b : β) : (m.insert i b).keys = insert i m.keys := by
  ext k
  rw [Finmap.mem_keys, Finmap.mem_insert, Finset.mem_insert, Finmap.mem_keys]

theorem keys_insert_of_mem {β : Type} {m : Finmap fun _ : Nat => β} {i : Nat} (hi : i ∈ m.keys) (b : β) :
    (m.insert i b).keys = m.keys := by
  rw [keys_insert, Finset.insert_eq_of_mem hi]

namespace NodesOk

variable {α : Type} {s : PtrMultiListBase α} {ids : List NodeId}

theorem walk_eq (h : NodesOk s ids) : s.walk = ids := by
  refine h.listed.walk_eq ?_
  rw [h.keys, List.toFinset_card_of_nodup h.listed.nodup]

theorem elements_eq (h : NodesOk s ids) : s.elements = ids.filterMap fun n => s.m_data.lookup n := by
  rw [PtrMultiListBase.elements, h.walk_eq]

theorem derefs_eq (h : NodesOk s ids) {ns : List NodeId} (hns : ∀ n ∈ ns, n ∈ ids) : s.derefs ns = some () := by
  refine if_pos fun n hn => ?_
  rw [h.keys, List.mem_toFinset]
  exact hns n hn

theorem first_eq (h : NodesOk s ids) : s.nodes.first = ids.head? := by
  have hsplit : s.nodes.Listed ([] ++ ids) := h.listed
  exact hsplit.read_endSlot

theorem mem_of_next (h : NodesOk s ids) {x y : NodeId} (hx : x ∈ ids) (hnext : s.nodes.next x = some y) :
    y ∈ ids := by
  obtain ⟨a, b, rfl⟩ := List.append_of_mem hx
  rw [h.listed.next_eq] at hnext
  simp [List.mem_of_head? hnext]

theorem of_eq {s' : PtrMultiListBase α} (h : NodesOk s ids) (hnodes : s'.nodes = s.nodes)
    (hlast : s'.m_pLastNode = s.m_pLastNode) (hdata : s'.m_data = s.m_data) : NodesOk s' ids :=
  ⟨by rw [hnodes]; exact h.listed, by rw [hlast]; exact h.last, by rw [hdata]; exact h.keys⟩

end NodesOk

variable {i : IterId}

namespace IteratorsOk

variable {L : Links IterId} {cursors : Finmap fun _ : IterId => Cursor} {its : List IterId}

theorem pThis_none_iff (h : IteratorsOk L cursors its) (hi : i ∈ cursors.keys) :
    L.pThis i = none ↔ i ∉ its := by
  obtain ⟨c, hc⟩ := mem_keys_iff.mp hi
  refine ⟨fun hnone hmem => ?_, fun hmem => (h.unlinked hc hmem).1⟩
  obtain ⟨s, hs, -⟩ := h.listed.read_pThis hmem
  rw [hnone] at hs
  cases hs

theorem length_le (h : IteratorsOk L cursors its) : its.length ≤ cursors.keys.card := by
  rw [← List.toFinset_card_of_nodup h.listed.nodup]
  exact Finset.card_le_card fun i hi => h.exist (List.mem_toFinset.mp hi)

theorem of_cursors (h : IteratorsOk L cursors its) {cursors' : Finmap fun _ : IterId => Cursor}
    (hkeys : cursors'.keys = cursors.keys)
    (hnull : ∀ {i c}, cursors'.lookup i = some c → i ∉ its → cursors.lookup i = some ⟨none, none⟩ → c = ⟨none, none⟩) :
    IteratorsOk L cursors' its := by
  refine ⟨h.listed, fun {i} hi => hkeys ▸ h.exist hi, fun {i c} hc hi => ?_⟩
  have hmem : i ∈ cursors.keys := hkeys ▸ mem_keys_iff.mpr ⟨c, hc⟩
  obtain ⟨d, hd⟩ := mem_keys_iff.mp hmem
  obtain ⟨hback, rfl⟩ := h.unlinked hd hi
  exact ⟨hback, hnull hc hi hd⟩

theorem linkAt {a b : List IterId} (h : IteratorsOk L cursors (a ++ b)) (hi : i ∉ a ++ b)
    (c : Cursor) : IteratorsOk (L.linkAt (endSlot .first a) i) (cursors.insert i c) (a ++ i :: b) := by
  refine ⟨h.listed.linkAt hi, fun {j} hj => ?_, fun {j d} hd hj => ?_⟩
  · rw [Finmap.mem_keys, Finmap.mem_insert]
    by_cases hji : j = i
    · exact .inl hji
    · refine .inr (Finmap.mem_keys.mp (h.exist ?_))
      simp only [List.mem_append, List.mem_cons] at hj ⊢
      tauto
  · have hji : j ≠ i := fun heq => hj (by simp [heq])
    have hjab : j ∉ a ++ b := by
      simp only [List.mem_append, List.mem_cons] at hj ⊢
      tauto
    rw [Finmap.lookup_insert_of_ne _ hji] at hd
    rw [Links.pThis_linkAt_of_ne L hji]
    · exact h.unlinked hd hjab
    · rw [h.listed.read_endSlot]
      intro hhead
      exact hjab (List.mem_append_right _ (List.mem_of_head? hhead))

theorem insert_null (h : IteratorsOk L cursors its) (hback : L.pThis i = none) :
    IteratorsOk L (cursors.insert i ⟨none, none⟩) its := by
  refine ⟨h.listed, fun {j} hj => ?_, fun {j d} hd hj => ?_⟩
  · rw [Finmap.mem_keys, Finmap.mem_insert]
    exact .inr (Finmap.mem_keys.mp (h.exist hj))
  · by_cases hji : j = i
    · subst hji
      rw [Finmap.lookup_insert, Option.some.injEq] at hd
      exact ⟨hback, hd.symm⟩
    · rw [Finmap.lookup_insert_of_ne _ hji] at hd
      exact h.unlinked hd hj

theorem erase (h : IteratorsOk L cursors its) (hi : i ∉ its) :
    IteratorsOk L (cursors.erase i) its := by
  refine ⟨h.listed, fun {j} hj => ?_, fun {j d} hd hj => ?_⟩
  · have hji : j ≠ i := fun heq => hi (heq ▸ hj)
    rw [Finmap.keys_erase, Finset.mem_erase]
    exact ⟨hji, h.exist hj⟩
  · have hji : j ≠ i := by
      rintro rfl
      rw [Finmap.lookup_erase] at hd
      cases hd
    rw [Finmap.lookup_erase_ne hji] at hd
    exact h.unlinked hd hj

theorem reset (h : IteratorsOk L cursors its) (hi : i ∉ its) :
    IteratorsOk ((L.setPThis i none).write (.next i) none) cursors its := by
  refine ⟨(h.listed.setPThis hi none).write_next hi none, h.exist, fun {j d} hd hj => ?_⟩
  rw [Links.pThis_write]
  by_cases hji : j = i
  · subst hji
    exact ⟨Links.pThis_setPThis_self _ _ _, (h.unlinked hd hj).2⟩
  · rw [Links.pThis_setPThis_of_ne _ hji]
    exact h.unlinked hd hj

theorem unlinkFrom {a b : List IterId} (h : IteratorsOk L cursors (a ++ i :: b)) :
    IteratorsOk (L.unlinkFrom (endSlot .first a) i) (cursors.erase i) (a ++ b) := by
  have hnodup := (List.perm_middle.nodup_iff.mp h.listed.nodup)
  refine ⟨h.listed.unlinkFrom, fun {j} hj => ?_, fun {j d} hd hj => ?_⟩
  · have hji : j ≠ i := fun heq => (List.nodup_cons.mp hnodup).1 (heq ▸ hj)
    rw [Finmap.keys_erase, Finset.mem_erase]
    refine ⟨hji, h.exist ?_⟩
    simp only [List.mem_append, List.mem_cons] at hj ⊢
    tauto
  · have hji : j ≠ i := by
      rintro rfl
      rw [Finmap.lookup_erase] at hd
      cases hd
    have hjab : j ∉ a ++ i :: b := by
      simp only [List.mem_append, List.mem_cons] at hj ⊢
      tauto
    rw [Finmap.lookup_erase_ne hji] at hd
    rw [Links.pThis_unlinkFrom_of_ne]
    · exact h.unlinked hd hjab
    · rw [h.listed.next_eq]
      intro hhead
      exact hj (List.mem_append_right _ (List.mem_of_head? hhead))

theorem unlink (h : IteratorsOk L cursors its) (hi : i ∈ cursors.keys) :
    (PtrMultiListBase.unlink L i).pThis i = none ∧
      IteratorsOk (PtrMultiListBase.unlink L i) (cursors.erase i) (its.erase i) := by
  unfold PtrMultiListBase.unlink
  by_cases hmem : i ∈ its
  · obtain ⟨a, b, rfl⟩ := List.append_of_mem hmem
    have hi' : i ∉ a ++ b := (List.nodup_cons.mp (List.perm_middle.nodup_iff.mp h.listed.nodup)).1
    have herase : (a ++ i :: b).erase i = a ++ b := by
      rw [List.erase_append_right _ fun ha => hi' (List.mem_append_left _ ha), List.erase_cons_head]
    rw [h.listed.pThis_eq, herase]
    refine ⟨?_, h.unlinkFrom.reset hi'⟩
    rw [Links.pThis_write, Links.pThis_setPThis_self]
  · have hnone := (h.pThis_none_iff hi).mpr hmem
    rw [hnone, List.erase_of_not_mem hmem]
    exact ⟨hnone, h.erase hmem⟩

theorem link (h : IteratorsOk L cursors its) {i other : IterId} {c : Cursor} (hi : i ∉ its)
    (hother : cursors.lookup other = some c) :
    ∃ its', IteratorsOk (PtrMultiListBase.link L i other) (cursors.insert i c) its' := by
  have hkeys : other ∈ cursors.keys := mem_keys_iff.mpr ⟨c, hother⟩
  unfold PtrMultiListBase.link
  by_cases hmem : other ∈ its
  · obtain ⟨a, b, rfl⟩ := List.append_of_mem hmem
    have hlink := h.linkAt hi c
    rw [Links.linkAt, h.listed.read_endSlot] at hlink
    rw [h.listed.pThis_eq]
    exact ⟨_, hlink⟩
  · have hnull := h.unlinked hother hmem
    rw [hnull.1, hnull.2]
    have hreset := h.reset hi
    rw [Links.write_setPThis] at hreset
    exact ⟨its, hreset.insert_null (Links.pThis_setPThis_self _ _ _)⟩

end IteratorsOk

/-! ### Operations on iterators -/

namespace WellFormed

variable {α : Type} {s : PtrMultiListBase α} {ids : List NodeId} {its : List IterId}

theorem cursor_of_mem (h : WellFormed s ids its) (hi : i ∈ s.cursors.keys) :
    ∃ c, s.cursors.lookup i = some c ∧ CursorOk s.nodes ids c := by
  obtain ⟨c, hc⟩ := mem_keys_iff.mp hi
  exact ⟨c, hc, h.cursors hc⟩

/-- An operation succeeds, keeps the invariant and leaves the nodes alone. -/
def Keeps (s : PtrMultiListBase α) (ids : List NodeId) (r : Option (PtrMultiListBase α)) : Prop :=
  ∃ s' its', r = some s' ∧ s'.nodes = s.nodes ∧ s'.m_data = s.m_data ∧ WellFormed s' ids its'

theorem insert_cursor (h : WellFormed s ids its) {L : Links IterId} {c : Cursor} {its' : List IterId}
    (hits : IteratorsOk L (s.cursors.insert i c) its') (hc : CursorOk s.nodes ids c) :
    WellFormed { s with cursors := s.cursors.insert i c, iterators := L } ids its' := by
  refine ⟨h.nodes.of_eq rfl rfl rfl, hits, fun {j d} hd => ?_⟩
  change (s.cursors.insert i c).lookup j = some d at hd
  by_cases hji : j = i
  · subst hji
    rw [Finmap.lookup_insert, Option.some.injEq] at hd
    exact hd ▸ hc
  · rw [Finmap.lookup_insert_of_ne _ hji] at hd
    exact h.cursors hd

theorem keeps_insert_cursor (h : WellFormed s ids its) {L : Links IterId} {c : Cursor}
    {its' : List IterId} (hits : IteratorsOk L (s.cursors.insert i c) its') (hc : CursorOk s.nodes ids c) :
    Keeps s ids (some { s with cursors := s.cursors.insert i c, iterators := L }) :=
  ⟨_, its', rfl, rfl, rfl, h.insert_cursor hits hc⟩

theorem cursorOk_of_item (h : WellFormed s ids its) {item : Option NodeId} (hitem : ∀ x ∈ item, x ∈ ids) :
    CursorOk s.nodes ids ⟨item, item.bind s.nodes.next⟩ := by
  refine ⟨fun hx => hitem _ hx, fun hy => ?_, fun hx hy => ?_⟩
  · obtain ⟨x, hx, hnext⟩ := Option.bind_eq_some_iff.mp hy
    exact h.nodes.mem_of_next (hitem x hx) hnext
  · cases hx
    exact hy

theorem newIterator (h : WellFormed s ids its) (hi : i ∉ s.cursors.keys) {item : Option NodeId}
    (hitem : ∀ x ∈ item, x ∈ ids) :
    s.newIterator i item = some { s with
      cursors := s.cursors.insert i ⟨item, item.bind s.nodes.next⟩
      iterators := s.iterators.linkAt .first i } ∧
    WellFormed { s with
      cursors := s.cursors.insert i ⟨item, item.bind s.nodes.next⟩
      iterators := s.iterators.linkAt .first i } ids (i :: its) := by
  constructor
  · unfold PtrMultiListBase.newIterator
    rw [if_neg hi, h.nodes.derefs_eq fun n hn => hitem n (Option.mem_toList.mp hn)]
    rfl
  · have hits : i ∉ [] ++ its := fun hmem => hi (h.iterators.exist hmem)
    exact h.insert_cursor (h.iterators.linkAt hits _) (h.cursorOk_of_item hitem)

theorem keeps_newIterator (h : WellFormed s ids its) (hi : i ∉ s.cursors.keys) {item : Option NodeId}
    (hitem : ∀ x ∈ item, x ∈ ids) : Keeps s ids (s.newIterator i item) :=
  ⟨_, _, (h.newIterator hi hitem).1, rfl, rfl, (h.newIterator hi hitem).2⟩

theorem keeps_beginIterator (h : WellFormed s ids its) (hi : i ∉ s.cursors.keys) :
    Keeps s ids (s.beginIterator i) :=
  h.keeps_newIterator hi fun _ hx => List.mem_of_head? (h.nodes.first_eq ▸ hx)

theorem keeps_endIterator (h : WellFormed s ids its) (hi : i ∉ s.cursors.keys) :
    Keeps s ids (s.endIterator i) := by
  have hits : i ∉ its := fun hmem => hi (h.iterators.exist hmem)
  have hreset := h.iterators.reset hits
  rw [Links.write_setPThis] at hreset
  unfold PtrMultiListBase.endIterator
  rw [if_neg hi]
  exact h.keeps_insert_cursor (hreset.insert_null (Links.pThis_setPThis_self _ _ _)) (cursorOk_null _ _)

theorem keeps_copyIterator (h : WellFormed s ids its) {i other : IterId} (hi : i ∉ s.cursors.keys)
    (hother : other ∈ s.cursors.keys) : Keeps s ids (s.copyIterator i other) := by
  obtain ⟨c, hc, hok⟩ := h.cursor_of_mem hother
  have hits : i ∉ its := fun hmem => hi (h.iterators.exist hmem)
  obtain ⟨its', hlink⟩ := h.iterators.link hits hc
  unfold PtrMultiListBase.copyIterator
  rw [if_neg hi, hc]
  exact h.keeps_insert_cursor hlink hok

theorem keeps_assignIterator (h : WellFormed s ids its) {i other : IterId} (hi : i ∈ s.cursors.keys)
    (hother : other ∈ s.cursors.keys) : Keeps s ids (s.assignIterator i other) := by
  obtain ⟨ci, hci, -⟩ := h.cursor_of_mem hi
  obtain ⟨c, hc, hok⟩ := h.cursor_of_mem hother
  unfold PtrMultiListBase.assignIterator
  rw [hci, hc]
  by_cases heq : i = other
  · exact ⟨s, its, if_pos heq, rfl, rfl, h⟩
  · have hunlink := (h.iterators.unlink hi).2
    have hi₁ : i ∉ its.erase i := h.iterators.listed.nodup.not_mem_erase
    have hother' : (s.cursors.erase i).lookup other = some c := by
      rw [Finmap.lookup_erase_ne (Ne.symm heq), hc]
    obtain ⟨its', hlink⟩ := hunlink.link hi₁ hother'
    rw [Finmap.insert_erase_self] at hlink
    obtain ⟨s', its'', hs', hnodes, hdata, hwf⟩ := h.keeps_insert_cursor hlink hok
    exact ⟨s', its'', (if_neg heq).trans hs', hnodes, hdata, hwf⟩

theorem keeps_nextIterator (h : WellFormed s ids its) (hi : i ∈ s.cursors.keys) :
    Keeps s ids (s.nextIterator i) := by
  obtain ⟨c, hc, hok⟩ := h.cursor_of_mem hi
  have hitem : ∀ x ∈ c.m_nextItem, x ∈ ids := fun x hx => hok.nextItem hx
  have hderefs := h.nodes.derefs_eq fun n hn => hitem n (Option.mem_toList.mp hn)
  have hits : IteratorsOk s.iterators
      (s.cursors.insert i ⟨c.m_nextItem, c.m_nextItem.bind s.nodes.next⟩) its := by
    refine h.iterators.of_cursors ?_ fun {j d} hd hj hnull => ?_
    · exact keys_insert_of_mem hi _
    · by_cases hji : j = i
      · subst hji
        rw [Finmap.lookup_insert, Option.some.injEq] at hd
        rw [hc, Option.some.injEq] at hnull
        simp [← hd, hnull]
      · rw [Finmap.lookup_insert_of_ne _ hji, hnull, Option.some.injEq] at hd
        exact hd.symm
  unfold PtrMultiListBase.nextIterator
  rw [hc]
  dsimp only [Option.bind_eq_bind, Option.bind_some]
  rw [hderefs]
  exact h.keeps_insert_cursor hits (h.cursorOk_of_item hitem)

theorem invalidate (h : WellFormed s ids its) (hi : i ∈ s.cursors.keys) :
    ∃ s', s.invalidate i = some s' ∧ s'.nodes = s.nodes ∧ s'.m_data = s.m_data ∧
      s'.cursors.keys = s.cursors.keys ∧ WellFormed s' ids (its.erase i) := by
  obtain ⟨c, hc, -⟩ := h.cursor_of_mem hi
  obtain ⟨hback, hunlink⟩ := h.iterators.unlink hi
  have hnull := hunlink.insert_null hback
  rw [Finmap.insert_erase_self] at hnull
  unfold PtrMultiListBase.invalidate
  rw [hc]
  refine ⟨_, rfl, rfl, rfl, keys_insert_of_mem hi _, h.insert_cursor hnull (cursorOk_null _ _)⟩

theorem keeps_invalidate (h : WellFormed s ids its) (hi : i ∈ s.cursors.keys) :
    Keeps s ids (s.invalidate i) := by
  obtain ⟨s', hs', hnodes, hdata, -, hwf⟩ := h.invalidate hi
  exact ⟨s', _, hs', hnodes, hdata, hwf⟩

theorem destroyIterator (h : WellFormed s ids its) (hi : i ∈ s.cursors.keys) :
    ∃ s', s.destroyIterator i = some s' ∧ s'.nodes = s.nodes ∧ s'.m_data = s.m_data ∧
      s'.cursors.keys = s.cursors.keys.erase i ∧ WellFormed s' ids (its.erase i) := by
  obtain ⟨c, hc, -⟩ := h.cursor_of_mem hi
  have hunlink := (h.iterators.unlink hi).2
  unfold PtrMultiListBase.destroyIterator
  rw [hc]
  refine ⟨_, rfl, rfl, rfl, Finmap.keys_erase _ _, h.nodes.of_eq rfl rfl rfl, hunlink, fun {j d} hd => ?_⟩
  change (s.cursors.erase i).lookup j = some d at hd
  have hji : j ≠ i := by
    rintro rfl
    rw [Finmap.lookup_erase] at hd
    cases hd
  rw [Finmap.lookup_erase_ne hji] at hd
  exact h.cursors hd

theorem keeps_destroyIterator (h : WellFormed s ids its) (hi : i ∈ s.cursors.keys) :
    Keeps s ids (s.destroyIterator i) := by
  obtain ⟨s', hs', hnodes, hdata, -, hwf⟩ := h.destroyIterator hi
  exact ⟨s', _, hs', hnodes, hdata, hwf⟩

theorem invalidateLoop (h : WellFormed s ids its) {fuel : Nat} (hfuel : its.length ≤ fuel) :
    ∃ s', PtrMultiListBase.invalidateLoop fuel s = some s' ∧ s'.nodes = s.nodes ∧ s'.m_data = s.m_data ∧
      s'.cursors.keys = s.cursors.keys ∧ WellFormed s' ids [] := by
  induction fuel generalizing s its with
  | zero =>
    have hnil : its = [] := List.length_eq_zero_iff.mp (by omega)
    subst hnil
    have hfirst : s.iterators.first = none := h.iterators.listed.last
    exact ⟨s, by unfold PtrMultiListBase.invalidateLoop; rw [hfirst], rfl, rfl, rfl, h⟩
  | succ fuel ih =>
    unfold PtrMultiListBase.invalidateLoop
    cases its with
    | nil =>
      have hfirst : s.iterators.first = none := h.iterators.listed.last
      rw [hfirst]
      exact ⟨s, rfl, rfl, rfl, rfl, h⟩
    | cons i its =>
      have hfirst : s.iterators.first = some i := h.iterators.listed.path.1
      obtain ⟨s₁, hs₁, hnodes₁, hdata₁, hkeys₁, hwf₁⟩ := h.invalidate (h.iterators.exist List.mem_cons_self)
      rw [List.erase_cons_head] at hwf₁
      obtain ⟨s', hs', hnodes, hdata, hkeys, hwf⟩ := ih hwf₁ (by simpa using hfuel)
      rw [hfirst]
      refine ⟨s', ?_, hnodes.trans hnodes₁, hdata.trans hdata₁, hkeys.trans hkeys₁, hwf⟩
      dsimp only
      rw [hs₁]
      exact hs'

theorem invalidateAllIterators (h : WellFormed s ids its) :
    ∃ s', s.invalidateAllIterators = some s' ∧ s'.nodes = s.nodes ∧ s'.m_data = s.m_data ∧
      s'.cursors.keys = s.cursors.keys ∧ WellFormed s' ids [] :=
  h.invalidateLoop h.iterators.length_le

end WellFormed

end Afl.Container
