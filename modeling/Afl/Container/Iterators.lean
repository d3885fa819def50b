import Afl.Container.BackPointers

/-!
# Where iterators go

The abstract model is a list of elements with marks: each iterator stands at an element, or its element is gone and
what followed it is remembered. `Marked.apply` says what the operations do to the marks.
The iterators of the code follow it as long as nothing is appended while an iterator stands at the last element (its
`m_nextItem` stays null), and no element with a stale back pointer is removed or inserted before.
-/

namespace Afl.Container

open Intrusive PtrMultiListBase

/-! ### Lists with marks -/

/-- Where an iterator stands: at an element, or before what followed its element when that was removed. The end of
the list is `before none`. -/
inductive Standing
  | element (x : NodeId)
  | before (y : Option NodeId)
deriving DecidableEq

/-- The element after `x`. -/
def follower (ids : List NodeId) (x : NodeId) : Option NodeId := (ids.dropWhile (· ≠ x)).tail.head?

namespace Standing

def stand : Option NodeId → Standing
  | some x => element x
  | none => before none

def current : Standing → Option NodeId
  | element x => some x
  | before _ => none

/-- The element `next` leads to. -/
def following (ids : List NodeId) : Standing → Option NodeId
  | element x => follower ids x
  | before y => y

/-- After the removal of `x`, which `next` followed. -/
def remove (x : NodeId) (next : Option NodeId) : Standing → Standing
  | element y => if y = x then before next else element y
  | before y => if y = some x then before next else before y

def cursor (ids : List NodeId) (st : Standing) : Cursor := ⟨st.current, st.following ids⟩

end Standing

/-- The elements, and where each iterator stands. -/
structure Marked where
  ids : List NodeId
  standing : IterId → Standing

namespace Marked

variable {α : Type}

def put (m : Marked) (i : IterId) (st : Standing) : Marked := { m with standing := Function.update m.standing i st }

def remove (m : Marked) (x : NodeId) : Marked :=
  ⟨m.ids.erase x, fun i => (m.standing i).remove x (follower m.ids x)⟩

/-- A new element before the one an iterator stands at, or goes on with, or at the end. -/
def insert (m : Marked) (iter : IterId) (n : NodeId) : Marked :=
  match m.standing iter with
  | .element x | .before (some x) => { m with ids := m.ids.insertIdx (m.ids.idxOf x) n }
  | .before none => { m with ids := m.ids ++ [n] }

def apply (m : Marked) : Op α → Marked
  | .pushBackNew n _ => { m with ids := m.ids ++ [n] }
  | .pushFrontNew n _ => { m with ids := n :: m.ids }
  | .insert iter n result _ => (m.insert iter n).put result (.element n)
  | .erase iter | .extractElement iter =>
    match m.standing iter with
    | .element x => m.remove x
    | .before _ => m
  | .swapElements _ _ => m
  | .extractFront _ =>
    match m.ids with
    | [] => m
    | x :: _ => m.remove x
  | .clear _ => ⟨[], fun _ => .before none⟩
  | .beginIterator i => m.put i (.stand m.ids.head?)
  | .endIterator i | .invalidate i | .destroyIterator i => m.put i (.before none)
  | .copyIterator i other | .assignIterator i other => m.put i (m.standing other)
  | .nextIterator i => m.put i (.stand ((m.standing i).following m.ids))
  | .invalidateAllIterators => { m with standing := fun _ => .before none }

end Marked

/-! ### The list next to its marks -/

/-- The list, and the list with marks that went through the same operations. -/
structure MarkedList (α : Type) where
  list : Option (PtrMultiListBase α)
  marks : Marked

namespace MarkedList

variable {α : Type}

def new : MarkedList α := ⟨some .new, ⟨[], fun _ => .before none⟩⟩

/-- One operation of a caller that keeps to the contract. -/
def step (m : MarkedList α) (op : Op α) : Option (MarkedList α) :=
  match m.list with
  | none => none
  | some s => if s.Valid op then some ⟨s.exec op, m.marks.apply op⟩ else none

/-- Walking the list gives the elements, every iterator is at the element it should be at, and `next` would lead it
to the element it should lead to. -/
def Stable (m : MarkedList α) : Prop :=
  ∃ s, m.list = some s ∧ s.walk = m.marks.ids ∧ ∀ i ∈ s.cursors.keys,
    s.itemOf i = (m.marks.standing i).current ∧
      ∃ s', s.nextIterator i = some s' ∧ s'.itemOf i = (m.marks.standing i).following m.marks.ids

end MarkedList

namespace PtrMultiListBase

variable {α : Type}

/-- Some iterator stands at the last element. -/
def AtLast (s : PtrMultiListBase α) : Prop :=
  ∃ i c x, s.cursors.lookup i = some c ∧ c.m_item = some x ∧ s.m_pLastNode = .next x

/-- The operation appends an element while some iterator stands at the last one. -/
def AppendsBehind (s : PtrMultiListBase α) : Op α → Prop
  | .pushBackNew _ _ => s.AtLast
  | .insert iter _ _ _ => s.cursors.lookup iter = some ⟨none, none⟩ ∧ s.AtLast
  | _ => False

/-- The operation removes an element with a stale back pointer, or inserts before it. -/
def TouchesStale (s : PtrMultiListBase α) : Op α → Prop
  | .insert iter _ _ _ => ∃ c x, s.cursors.lookup iter = some c ∧ c.m_item.or c.m_nextItem = some x ∧ ¬s.Fresh x
  | .erase iter | .extractElement iter => ∃ x, s.itemOf iter = some x ∧ ¬s.Fresh x
  | _ => False

/-- The operations that the iterators do not survive. -/
def LosesPlace (s : PtrMultiListBase α) (op : Op α) : Prop := s.AppendsBehind op ∨ s.TouchesStale op

end PtrMultiListBase

/-! ### Followers -/

theorem follower_middle {a b : List NodeId} {x : NodeId} (hx : x ∉ a) : follower (a ++ x :: b) x = b.head? := by
  induction a with
  | nil => simp [follower]
  | cons y a ih =>
    have hy : y ≠ x := fun heq => hx (heq ▸ List.mem_cons_self)
    have hrest := ih fun hmem => hx (List.mem_cons_of_mem y hmem)
    simpa [follower, hy] using hrest

variable {ids : List NodeId}

theorem follower_concat {x n : NodeId} (hnodup : ids.Nodup) (hx : x ∈ ids)
    (hlast : ids.getLast? ≠ some x) : follower (ids ++ [n]) x = follower ids x := by
  obtain ⟨a, b, rfl⟩ := List.append_of_mem hx
  have hxa : x ∉ a := fun hmem => (List.disjoint_of_nodup_append hnodup) hmem List.mem_cons_self
  have htext : a ++ x :: b ++ [n] = a ++ x :: (b ++ [n]) := by simp
  rw [htext, follower_middle hxa, follower_middle hxa]
  cases b with
  | nil => exact absurd (by simp) hlast
  | cons y b => rfl

theorem follower_cons {x n : NodeId} (hne : n ≠ x) : follower (n :: ids) x = follower ids x := by
  simp [follower, hne]

theorem follower_splice {a b c e : List NodeId} {item x : NodeId} (hnodup : (a ++ (c ++ b)).Nodup)
    (hitem : (c ++ b).head? = some item) (hx : x ∈ a ++ b) (hxe : x ∉ e) :
    follower (a ++ (e ++ b)) x =
      if follower (a ++ (c ++ b)) x = some item then (e ++ b).head? else follower (a ++ (c ++ b)) x := by
  rcases List.mem_append.mp hx with hxa | hxb
  · obtain ⟨l, r, rfl⟩ := List.append_of_mem hxa
    have hxl : x ∉ l := fun hmem =>
      (List.disjoint_of_nodup_append (List.nodup_append.mp hnodup).1) hmem List.mem_cons_self
    have htext (t : List NodeId) : l ++ x :: r ++ t = l ++ x :: (r ++ t) := by simp
    rw [htext, htext, follower_middle hxl, follower_middle hxl]
    cases r with
    | nil => rw [List.nil_append, List.nil_append, if_pos hitem]
    | cons y r =>
      have hy : y ≠ item := by
        rintro rfl
        have hmem : y ∈ c ++ b := List.mem_of_head? hitem
        exact (List.disjoint_of_nodup_append hnodup) (by simp) hmem
      simp [hy]
  · obtain ⟨l, r, rfl⟩ := List.append_of_mem hxb
    have hsplit (t : List NodeId) : a ++ (t ++ (l ++ x :: r)) = (a ++ (t ++ l)) ++ x :: r := by simp
    rw [hsplit] at hnodup
    have hxc : x ∉ a ++ (c ++ l) := fun hmem => (List.disjoint_of_nodup_append hnodup) hmem List.mem_cons_self
    have hxe' : x ∉ a ++ (e ++ l) := by
      simp only [List.mem_append, not_or] at hxc ⊢
      exact ⟨hxc.1, hxe, hxc.2.2⟩
    have hr : r.head? ≠ some item := by
      intro hhead
      have hfirst : item ∈ (c ++ l) ++ [x] := by
        have hsame : c ++ (l ++ x :: r) = ((c ++ l) ++ [x]) ++ r := by simp
        rw [hsame, List.head?_append_of_ne_nil _ (by simp)] at hitem
        exact List.mem_of_head? hitem
      have hsame : (a ++ (c ++ l)) ++ x :: r = (a ++ ((c ++ l) ++ [x])) ++ r := by simp
      rw [hsame] at hnodup
      exact (List.disjoint_of_nodup_append hnodup) (List.mem_append_right _ hfirst) (List.mem_of_head? hhead)
    rw [hsplit, hsplit, follower_middle hxc, follower_middle hxe', if_neg hr]

/-! ### The marks are kept -/

def Marks {α : Type} (s : PtrMultiListBase α) (m : Marked) : Prop :=
  ∀ i c, s.cursors.lookup i = some c → c = (m.standing i).cursor m.ids

variable {i : IterId}

section marks

variable {α : Type} {s s' : PtrMultiListBase α} {m : Marked}

theorem Mended.next_eq_follower (h : s.Mended ids) {x : NodeId} (hx : x ∈ ids) :
    s.nodes.next x = follower ids x := by
  obtain ⟨a, b, rfl⟩ := List.append_of_mem hx
  have hxa : x ∉ a := fun hmem => (List.disjoint_of_nodup_append h.nodup) hmem List.mem_cons_self
  rw [h.next_eq, follower_middle hxa]

theorem Marks.put (h : Marks s m) {st : Standing}
    (hcursors : s'.cursors = s.cursors.insert i (st.cursor m.ids)) : Marks s' (m.put i st) := by
  intro j c hc
  rw [hcursors] at hc
  by_cases hj : j = i
  · subst hj
    rw [Finmap.lookup_insert, Option.some.injEq] at hc
    rw [← hc]
    simp [Marked.put]
  · rw [Finmap.lookup_insert_of_ne _ hj] at hc
    simpa [Marked.put, Function.update_of_ne hj] using h j c hc

theorem stand_cursor (h : s.Mended ids) {o : Option NodeId} (ho : ∀ x ∈ o, x ∈ ids) :
    (Standing.stand o).cursor ids = ⟨o, o.bind s.nodes.next⟩ := by
  cases o with
  | none => rfl
  | some x =>
    have hnext := Mended.next_eq_follower h (ho x rfl)
    simp [Standing.stand, Standing.cursor, Standing.current, Standing.following, hnext]

theorem Standing.current_mem (h : s.Mended ids) {c : Cursor} {st : Standing}
    (hc : s.cursors.lookup i = some c) (hst : c = st.cursor ids) :
    (∀ x, st = .element x → x ∈ ids) ∧ ∀ y, st = .before (some y) → y ∈ ids := by
  have hok := h.cursorOk hc
  subst hst
  constructor
  · rintro x rfl
    exact hok.item rfl
  · rintro y rfl
    exact hok.nextItem rfl

theorem marks_insertAtEnd {f : IterId → Standing} (h : s.Mended ids) (hmarks : Marks s ⟨ids, f⟩)
    (hlast : ¬s.AtLast) (n : NodeId) (hcursors : s'.cursors = s.cursors) : Marks s' ⟨ids ++ [n], f⟩ := by
  intro i c hc
  rw [hcursors] at hc
  have hmark := hmarks i c hc
  rw [hmark]
  dsimp only
  cases hst : f i with
  | before y => rfl
  | element x =>
    have hx := (Standing.current_mem h hc hmark).1 x hst
    have hne : ids.getLast? ≠ some x := by
      intro heq
      refine hlast ⟨i, c, x, hc, ?_, h.last_iff.mpr heq⟩
      rw [hmark]
      dsimp only
      rw [hst]
      rfl
    simp [Standing.cursor, Standing.current, Standing.following, follower_concat h.nodup hx hne]

theorem marks_insertBefore {a b : List NodeId} {item n : NodeId} {f : IterId → Standing}
    (h : s.Mended (a ++ item :: b)) (hmarks : Marks s ⟨a ++ item :: b, f⟩) (hn : n ∉ a ++ item :: b)
    (hlookup : ∀ i, s'.cursors.lookup i = (s.cursors.lookup i).map (rewriteCursor item n)) :
    Marks s' ⟨a ++ n :: item :: b, f⟩ := by
  intro i c hc
  rw [hlookup, Option.map_eq_some_iff] at hc
  obtain ⟨d, hd, rfl⟩ := hc
  have hmark := hmarks i d hd
  rw [hmark]
  dsimp only
  cases hst : f i with
  | before y => rfl
  | element x =>
    have hx := (Standing.current_mem h hd hmark).1 x hst
    have hfollow := follower_splice (a := a) (b := item :: b) (c := []) (e := [n]) (x := x) h.nodup rfl hx
      (by simpa using fun heq : x = n => hn (heq ▸ hx))
    simp only [List.nil_append, List.singleton_append, List.head?_cons] at hfollow
    rw [Standing.cursor, Standing.cursor, rewriteCursor, Standing.following, Standing.following, hfollow]
    by_cases hf : follower (a ++ item :: b) x = some item <;> simp [Standing.current, hf]

theorem marks_removeNode {a b : List NodeId} {item : NodeId} {f : IterId → Standing}
    (h : s.Mended (a ++ item :: b)) (hmarks : Marks s ⟨a ++ item :: b, f⟩)
    (hlookup : ∀ i c, s'.cursors.lookup i = some c →
      (s.cursors.lookup i).map (eraseCursor item b.head?) = some c) :
    Marks s' (Marked.remove ⟨a ++ item :: b, f⟩ item) := by
  have hitem : item ∉ a := fun hmem => (List.disjoint_of_nodup_append h.nodup) hmem List.mem_cons_self
  have hremove : Marked.remove ⟨a ++ item :: b, f⟩ item = ⟨a ++ b, fun i => (f i).remove item b.head?⟩ := by
    rw [Marked.remove]
    dsimp only
    rw [follower_middle hitem, List.erase_append_right _ hitem, List.erase_cons_head]
  rw [hremove]
  intro i c hc
  obtain ⟨d, hd, rfl⟩ := Option.map_eq_some_iff.mp (hlookup i c hc)
  have hmark := hmarks i d hd
  rw [hmark]
  dsimp only
  cases hst : f i with
  | before y =>
    by_cases hy : y = some item <;>
      simp [eraseCursor, Standing.cursor, Standing.current, Standing.following, Standing.remove, hy]
  | element x =>
    by_cases hx : x = item
    · subst hx
      simp [eraseCursor, Standing.cursor, Standing.current, Standing.following, Standing.remove, follower_middle hitem]
    · have hmem := (Standing.current_mem h hd hmark).1 x hst
      have hx' : x ∈ a ++ b := by
        simp only [List.mem_append, List.mem_cons] at hmem ⊢
        tauto
      have hfollow := follower_splice (a := a) (b := b) (c := [item]) (e := []) (x := x) h.nodup rfl hx' (by simp)
      simp only [List.nil_append, List.singleton_append] at hfollow
      by_cases hf : follower (a ++ item :: b) x = some item <;>
        simp [eraseCursor, Standing.cursor, Standing.current, Standing.following, Standing.remove, hx, hfollow, hf]

end marks

/-! ### Operations -/

section exec

variable {α : Type} {s : PtrMultiListBase α} {m : Marked}

/-- The operation succeeds, and the iterators follow the marks. -/
def Follows (r : Option (PtrMultiListBase α)) (m : Marked) : Prop := ∃ s', r = some s' ∧ s'.Mended m.ids ∧ Marks s' m

theorem Follows.put (hmarks : Marks s m) {r : Option (PtrMultiListBase α)} {st : Standing}
    (hr : ∃ s', r = some s' ∧ s'.Mended m.ids) (hcursors : ∀ s', r = some s' → s'.cursors = s.cursors.insert i (st.cursor m.ids)) :
    Follows r (m.put i st) := by
  obtain ⟨s', hs', hmended⟩ := hr
  exact ⟨s', hs', hmended, hmarks.put (hcursors s' hs')⟩

theorem follows_beginIterator (h : s.Mended m.ids) (hmarks : Marks s m) (hi : i ∉ s.cursors.keys) :
    Follows (s.beginIterator i) (m.put i (.stand m.ids.head?)) := by
  have hfirst := h.first_eq
  have hmem : ∀ x ∈ s.nodes.first, x ∈ m.ids := fun x hx => List.mem_of_head? (hfirst ▸ hx)
  obtain ⟨s', hs', -, hcursors, hmended⟩ := h.newIterator hi hmem
  refine ⟨s', hs', hmended, hmarks.put ?_⟩
  rw [hcursors, ← hfirst, stand_cursor h hmem]

theorem follows_endIterator (h : s.Mended m.ids) (hmarks : Marks s m) (hi : i ∉ s.cursors.keys) :
    Follows (s.endIterator i) (m.put i (.before none)) := by
  refine Follows.put hmarks (h.of_keeps (·.endIterator i) (fun _ => endIterator_withBack i)
    fun hwf => hwf.keeps_endIterator hi) fun s' hs' => ?_
  rw [endIterator, if_neg hi] at hs'
  rw [← Option.some.inj hs']
  rfl

theorem follows_copyIterator (h : s.Mended m.ids) (hmarks : Marks s m) {i other : IterId} (hi : i ∉ s.cursors.keys)
    (hother : other ∈ s.cursors.keys) : Follows (s.copyIterator i other) (m.put i (m.standing other)) := by
  refine Follows.put hmarks (h.of_keeps (·.copyIterator i other) (fun _ => copyIterator_withBack i other)
    fun hwf => hwf.keeps_copyIterator hi hother) fun s' hs' => ?_
  obtain ⟨c, hc⟩ := mem_keys_iff.mp hother
  rw [copyIterator, if_neg hi, hc] at hs'
  rw [← Option.some.inj hs', hmarks other c hc]

theorem follows_assignIterator (h : s.Mended m.ids) (hmarks : Marks s m) {i other : IterId} (hi : i ∈ s.cursors.keys)
    (hother : other ∈ s.cursors.keys) : Follows (s.assignIterator i other) (m.put i (m.standing other)) := by
  refine Follows.put hmarks (h.of_keeps (·.assignIterator i other) (fun _ => assignIterator_withBack i other)
    fun hwf => hwf.keeps_assignIterator hi hother) fun s' hs' => ?_
  obtain ⟨d, hd⟩ := mem_keys_iff.mp hi
  obtain ⟨c, hc⟩ := mem_keys_iff.mp hother
  rw [assignIterator, hd, hc] at hs'
  dsimp only [Option.bind_eq_bind, Option.bind_some] at hs'
  rw [← hmarks other c hc]
  split at hs'
  · next heq =>
    rw [← Option.some.inj hs', heq, Finmap.insert_of_lookup hc]
  · rw [← Option.some.inj hs']

theorem follows_nextIterator (h : s.Mended m.ids) (hmarks : Marks s m) (hi : i ∈ s.cursors.keys) :
    Follows (s.nextIterator i) (m.put i (.stand ((m.standing i).following m.ids))) := by
  refine Follows.put hmarks (h.of_keeps (·.nextIterator i) (fun _ => nextIterator_withBack i)
    fun hwf => hwf.keeps_nextIterator hi) fun s' hs' => ?_
  obtain ⟨c, hc⟩ := mem_keys_iff.mp hi
  have hnext : c.m_nextItem = (m.standing i).following m.ids := by rw [hmarks i c hc]; rfl
  have hmem : ∀ x ∈ c.m_nextItem, x ∈ m.ids := fun x hx => (h.cursorOk hc).nextItem hx
  rw [nextIterator, hc] at hs'
  dsimp only [Option.bind_eq_bind, Option.bind_some] at hs'
  obtain ⟨u, -, hs'⟩ := Option.bind_eq_some_iff.mp hs'
  rw [← Option.some.inj hs', ← hnext, stand_cursor h hmem]

theorem follows_invalidate (h : s.Mended m.ids) (hmarks : Marks s m) (hi : i ∈ s.cursors.keys) :
    Follows (s.invalidate i) (m.put i (.before none)) := by
  refine Follows.put hmarks (h.of_keeps (·.invalidate i) (fun _ => invalidate_withBack i)
    fun hwf => hwf.keeps_invalidate hi) fun s' hs' => ?_
  obtain ⟨c, hc⟩ := mem_keys_iff.mp hi
  rw [invalidate, hc] at hs'
  rw [← Option.some.inj hs']
  rfl

theorem follows_destroyIterator (h : s.Mended m.ids) (hmarks : Marks s m) (hi : i ∈ s.cursors.keys) :
    Follows (s.destroyIterator i) (m.put i (.before none)) := by
  obtain ⟨s', hs', hcursors, hmended⟩ := h.destroyIterator hi
  refine ⟨s', hs', hmended, fun j c hc => ?_⟩
  rw [hcursors] at hc
  have hj : j ≠ i := by
    rintro rfl
    rw [Finmap.lookup_erase] at hc
    cases hc
  rw [Finmap.lookup_erase_ne hj] at hc
  simpa [Marked.put, Function.update_of_ne hj] using hmarks j c hc

theorem follows_invalidateAllIterators (h : s.Mended m.ids) :
    Follows s.invalidateAllIterators { m with standing := fun _ => .before none } := by
  obtain ⟨s', hs', -, hmended, hnull⟩ := h.invalidateAllIterators
  exact ⟨s', hs', hmended, hnull⟩

theorem follows_clear (h : s.Mended m.ids) {tmp : IterId} (htmp : tmp ∉ s.cursors.keys) :
    Follows (s.clear tmp) ⟨[], fun _ => .before none⟩ := by
  obtain ⟨s', hs', hmended⟩ := h.clear htmp
  refine ⟨s', hs', hmended, fun i c hc => ?_⟩
  have hok := hmended.cursorOk hc
  have hitem : c.m_item = none := Option.eq_none_iff_forall_ne_some.mpr fun x hx => List.not_mem_nil (hok.item hx)
  have hnext : c.m_nextItem = none := Option.eq_none_iff_forall_ne_some.mpr fun x hx => List.not_mem_nil (hok.nextItem hx)
  cases c
  cases hitem
  cases hnext
  rfl

theorem follows_extractFront (h : s.Mended m.ids) (hmarks : Marks s m) {tmp : IterId} (htmp : tmp ∉ s.cursors.keys) :
    Follows ((s.extractFront tmp).map (·.2)) (m.apply (.extractFront tmp : Op α)) := by
  obtain ⟨data, s', hs', hmended, hlookup⟩ := h.extractFront htmp
  rw [hs']
  obtain ⟨ids, f⟩ := m
  refine ⟨s', rfl, ?_⟩
  have hothers : ∀ i c, s'.cursors.lookup i = some c → (s.cursors.lookup i).map (Mended.eraseHead ids) = some c := by
    intro i c hc
    rw [hlookup] at hc
    split at hc
    · cases hc
    · exact hc
  cases ids with
  | nil =>
    refine ⟨hmended, fun i c hc => ?_⟩
    obtain ⟨d, hd, rfl⟩ := Option.map_eq_some_iff.mp (hothers i c hc)
    exact hmarks i d hd
  | cons x ids =>
    refine ⟨?_, marks_removeNode (a := []) h hmarks hothers⟩
    show s'.Mended ((x :: ids).erase x)
    rw [List.erase_cons_head]
    exact hmended

theorem follows_extractElement (h : s.Mended m.ids) (hmarks : Marks s m) {iter : IterId}
    (hiter : iter ∈ s.cursors.keys) (hfresh : ∀ x ∈ s.itemOf iter, s.Fresh x) :
    ∃ data s', s.extractElement iter = some (data, s') ∧ Follows (some s') (m.apply (.extractElement iter : Op α)) := by
  obtain ⟨c, hc⟩ := mem_keys_iff.mp hiter
  have hmark := hmarks iter c hc
  have hitem : c.m_item = (m.standing iter).current := by rw [hmark]; rfl
  obtain ⟨data, s', hs', hresult⟩ := h.extractElement hc fun x hx => hfresh x (by rw [itemOf, hc]; exact hx)
  refine ⟨data, s', hs', s', rfl, ?_⟩
  rw [hitem] at hresult
  obtain ⟨ids, f⟩ := m
  rw [Marked.apply]
  dsimp only at hitem hresult h ⊢
  cases hst : f iter with
  | before y =>
    rw [hst] at hresult
    have hresult : s' = s := hresult
    subst hresult
    exact ⟨h, hmarks⟩
  | element x =>
    rw [hst] at hresult
    obtain ⟨a, b, rfl, hlookup, hmended⟩ := hresult
    have hx : x ∉ a := fun hmem => (List.disjoint_of_nodup_append h.nodup) hmem List.mem_cons_self
    have herase : (a ++ x :: b).erase x = a ++ b := by rw [List.erase_append_right _ hx, List.erase_cons_head]
    refine ⟨?_, marks_removeNode h hmarks fun i c hc => (hlookup i).symm.trans hc⟩
    show s'.Mended ((a ++ x :: b).erase x)
    rw [herase]
    exact hmended

theorem follows_insertAt (h : s.Mended m.ids) (hmarks : Marks s m) {iter : IterId} {c : Cursor}
    (hc : s.cursors.lookup iter = some c) {n : NodeId} (hn : n ∉ s.m_data.keys)
    (hlast : c = ⟨none, none⟩ → ¬s.AtLast) (hfresh : ∀ x ∈ c.m_item.or c.m_nextItem, s.Fresh x) (x : α) :
    ∃ s', s.insertAt c n x = some s' ∧ s'.cursors.keys = s.cursors.keys ∧ n ∈ (m.insert iter n).ids ∧
      s'.Mended (m.insert iter n).ids ∧ Marks s' (m.insert iter n) := by
  have hmark := hmarks iter c hc
  obtain ⟨ids, f⟩ := m
  have hnids : n ∉ ids := fun hmem => hn (h.mem_keys_iff.mpr hmem)
  have hbefore {y : NodeId} (hy : y ∈ ids) (hfreshy : s.Fresh y) :
      ∃ s', s.insertBefore y n x = some s' ∧ s'.cursors.keys = s.cursors.keys ∧ n ∈ ids.insertIdx (ids.idxOf y) n ∧
        s'.Mended (ids.insertIdx (ids.idxOf y) n) ∧ Marks s' ⟨ids.insertIdx (ids.idxOf y) n, f⟩ := by
    obtain ⟨a, b, rfl⟩ := List.append_of_mem hy
    have hya : y ∉ a := fun hmem => (List.disjoint_of_nodup_append h.nodup) hmem List.mem_cons_self
    obtain ⟨s', hs', hlookup, hmended⟩ := h.insertBefore hfreshy hn x
    have hids : (a ++ y :: b).insertIdx ((a ++ y :: b).idxOf y) n = a ++ n :: y :: b := by
      rw [idxOf_middle hya, insertIdx_middle]
    rw [hids]
    refine ⟨s', hs', ?_, by simp, hmended, marks_insertBefore h hmarks hnids hlookup⟩
    ext i
    rw [mem_keys_iff, mem_keys_iff, hlookup]
    simp
  have hmem := Standing.current_mem h hc hmark
  dsimp only at hmark hmem
  unfold insertAt Marked.insert
  cases hst : f iter with
  | element y =>
    have hitem : c.m_item = some y := by rw [hmark, hst]; rfl
    simp only [hitem, hst]
    exact hbefore (hmem.1 y hst) (hfresh y (by rw [hitem]; rfl))
  | before o =>
    have hitem : c.m_item = none := by rw [hmark, hst]; rfl
    have hnext : c.m_nextItem = o := by rw [hmark, hst]; rfl
    cases o with
    | some y =>
      simp only [hitem, hnext, hst]
      exact hbefore (hmem.2 y hst) (hfresh y (by rw [hitem, hnext]; rfl))
    | none =>
      have hnull : c = ⟨none, none⟩ := by cases c; cases hitem; cases hnext; rfl
      obtain ⟨s', hs', hcursors, hmended⟩ := h.insertAtEnd hn x
      simp only [hitem, hnext, hst]
      exact ⟨s', hs', by rw [hcursors], by simp, hmended, marks_insertAtEnd h hmarks (hlast hnull) n hcursors⟩

theorem follows_insert (h : s.Mended m.ids) (hmarks : Marks s m) {iter result : IterId} {n : NodeId} {x : α}
    (hvalid : s.Valid (.insert iter n result x)) (hkeeps : ¬s.LosesPlace (.insert iter n result x)) :
    Follows (s.insert iter n result x) ((m.insert iter n).put result (.element n)) := by
  obtain ⟨hiter, hn, hresult⟩ := hvalid
  obtain ⟨c, hc⟩ := mem_keys_iff.mp hiter
  have hlast : c = ⟨none, none⟩ → ¬s.AtLast := fun hnull hat => hkeeps (.inl ⟨hnull ▸ hc, hat⟩)
  have hfresh : ∀ y ∈ c.m_item.or c.m_nextItem, s.Fresh y := fun y hy =>
    by_contra fun hstale => hkeeps (.inr ⟨c, y, hc, hy, hstale⟩)
  obtain ⟨s₁, hs₁, hkeys, hmem, hmended₁, hmarks₁⟩ := follows_insertAt h hmarks hc hn hlast hfresh x
  have hnew : ∀ y ∈ some n, y ∈ (m.insert iter n).ids := by
    rintro y hy
    cases hy
    exact hmem
  obtain ⟨s', hs', -, hcursors, hmended⟩ := hmended₁.newIterator (hkeys ▸ hresult) hnew
  refine ⟨s', ?_, hmended, hmarks₁.put ?_⟩
  · unfold PtrMultiListBase.insert
    rw [hc]
    dsimp only [Option.bind_eq_bind, Option.bind_some]
    rw [hs₁]
    exact hs'
  · rw [hcursors, ← stand_cursor hmended₁ hnew]
    rfl

theorem follows_pushFrontNew (h : s.Mended m.ids) (hmarks : Marks s m) {n : NodeId} (hn : n ∉ s.m_data.keys) (x : α) :
    Follows (s.pushFrontNew n x) { m with ids := n :: m.ids } := by
  obtain ⟨s', hs', hcursors, hmended⟩ := h.pushFrontNew hn x
  refine ⟨s', hs', hmended, fun i c hc => ?_⟩
  rw [hcursors] at hc
  have hmark := hmarks i c hc
  rw [hmark]
  dsimp only
  cases hst : m.standing i with
  | before y => rfl
  | element y =>
    have hy := (Standing.current_mem h hc hmark).1 y hst
    have hne : n ≠ y := fun heq => hn (h.mem_keys_iff.mpr (heq ▸ hy))
    simp [Standing.cursor, Standing.current, Standing.following, follower_cons hne]

theorem follows_swapElements (h : s.Mended m.ids) (hmarks : Marks s m) {a b : IterId}
    (hvalid : s.Valid (.swapElements a b : Op α)) : Follows (s.swapElements a b) m := by
  obtain ⟨x, hx⟩ := Option.ne_none_iff_exists'.mp hvalid.1
  obtain ⟨y, hy⟩ := Option.ne_none_iff_exists'.mp hvalid.2
  obtain ⟨ca, hca, hax⟩ := Option.bind_eq_some_iff.mp hx
  obtain ⟨cb, hcb, hby⟩ := Option.bind_eq_some_iff.mp hy
  have hxids : x ∈ m.ids := (h.cursorOk hca).item hax
  have hyids : y ∈ m.ids := (h.cursorOk hcb).item hby
  obtain ⟨dx, hdx⟩ := mem_keys_iff.mp (h.mem_keys_iff.mpr hxids)
  obtain ⟨dy, hdy⟩ := mem_keys_iff.mp (h.mem_keys_iff.mpr hyids)
  obtain ⟨back, its, hwf, hm⟩ := h
  refine ⟨{ s with m_data := (s.m_data.insert x dy).insert y dx }, ?_, ⟨back, its, hwf.swap hxids hyids dx dy, hm⟩, hmarks⟩
  unfold swapElements
  simp only [hca, hcb, hax, hby, hdx, hdy, Option.bind_eq_bind, Option.bind_some]
  rfl

/-- Every operation within the contract that does not lose a place moves the iterators as the marks say. -/
theorem follows_exec (h : s.Mended m.ids) (hmarks : Marks s m) {op : Op α} (hvalid : s.Valid op)
    (hkeeps : ¬s.LosesPlace op) : Follows (s.exec op) (m.apply op) := by
  have hfresh {iter : IterId} (hstale : ¬∃ x, s.itemOf iter = some x ∧ ¬s.Fresh x) : ∀ x ∈ s.itemOf iter, s.Fresh x :=
    fun x hx => by_contra fun hx' => hstale ⟨x, hx, hx'⟩
  cases op with
  | pushBackNew n x =>
    obtain ⟨s', hs', hcursors, hmended⟩ := h.insertAtEnd hvalid x
    exact ⟨s', hs', hmended, marks_insertAtEnd h hmarks (fun hat => hkeeps (.inl hat)) n hcursors⟩
  | pushFrontNew n x => exact follows_pushFrontNew h hmarks hvalid x
  | insert iter n result x => exact follows_insert h hmarks hvalid hkeeps
  | erase iter =>
    obtain ⟨data, s', hs', s'', hs'', hmended, hmarks'⟩ :=
      follows_extractElement h hmarks hvalid (hfresh fun hx => hkeeps (.inr hx))
    cases hs''
    refine ⟨s'.deleter data, ?_, hmended.deleter data, hmarks'⟩
    show s.erase iter = _
    unfold PtrMultiListBase.erase
    rw [hs']
    rfl
  | extractElement iter =>
    obtain ⟨data, s', hs', hfollows⟩ := follows_extractElement h hmarks hvalid (hfresh fun hx => hkeeps (.inr hx))
    show Follows ((s.extractElement iter).map (·.2)) _
    rw [hs']
    exact hfollows
  | swapElements a b => exact follows_swapElements h hmarks hvalid
  | extractFront tmp => exact follows_extractFront h hmarks hvalid
  | clear tmp => exact follows_clear h hvalid
  | beginIterator i => exact follows_beginIterator h hmarks hvalid
  | endIterator i => exact follows_endIterator h hmarks hvalid
  | copyIterator i other => exact follows_copyIterator h hmarks hvalid.1 hvalid.2
  | assignIterator i other => exact follows_assignIterator h hmarks hvalid.1 hvalid.2
  | nextIterator i => exact follows_nextIterator h hmarks hvalid
  | invalidate i => exact follows_invalidate h hmarks hvalid
  | destroyIterator i => exact follows_destroyIterator h hmarks hvalid
  | invalidateAllIterators => exact follows_invalidateAllIterators h

end exec

/-! ### Lost places -/

section breaks

variable {α : Type} {s s' : PtrMultiListBase α} {m : Marked}

theorem itemOf_nextIterator {c : Cursor} (hc : s.cursors.lookup i = some c)
    (hs' : s.nextIterator i = some s') : s'.itemOf i = c.m_nextItem := by
  rw [nextIterator, hc] at hs'
  dsimp only [Option.bind_eq_bind, Option.bind_some] at hs'
  obtain ⟨u, -, hs'⟩ := Option.bind_eq_some_iff.mp hs'
  rw [← Option.some.inj hs', itemOf]
  simp

theorem first_of_walk {x : NodeId} {l : List NodeId} (h : s.walk = x :: l) : s.nodes.first = some x := by
  unfold walk Links.walk at h
  cases hfuel : s.m_data.keys.card with
  | zero =>
    rw [hfuel] at h
    cases h
  | succ fuel =>
    rw [hfuel] at h
    cases hfirst : s.nodes.first with
    | none =>
      rw [hfirst] at h
      cases h
    | some y =>
      rw [hfirst] at h
      rw [(List.cons.inj h).1]

theorem standing_of_null {st : Standing} (h : ⟨none, none⟩ = st.cursor ids) :
    st = .before none := by
  cases st with
  | element x => cases h
  | before y => rw [show y = none from (congrArg Cursor.m_nextItem h).symm]

theorem standing_of_item {st : Standing} {x : NodeId} (h : (st.cursor ids).m_item = some x) :
    st = .element x := by
  cases st with
  | element y => rw [show y = x from Option.some.inj h]
  | before y => cases h

theorem not_stable_append {n : NodeId} {f f' : IterId → Standing} (h : s.Mended ids)
    (hmarks : Marks s ⟨ids, f⟩) (hat : s.AtLast) (hf : ∀ i ∈ s.cursors.keys, f' i = f i)
    (hcursors : ∀ i ∈ s.cursors.keys, s'.cursors.lookup i = s.cursors.lookup i) :
    ¬MarkedList.Stable ⟨some s', ⟨ids ++ [n], f'⟩⟩ := by
  rintro ⟨t, ht, -, hall⟩
  cases ht
  obtain ⟨i, c, x, hc, hitem, hlast⟩ := hat
  have hi : i ∈ s.cursors.keys := mem_keys_iff.mpr ⟨c, hc⟩
  have hc' : s'.cursors.lookup i = some c := by rw [hcursors i hi, hc]
  obtain ⟨-, s'', hs'', hnext⟩ := hall i (mem_keys_iff.mpr ⟨c, hc'⟩)
  have hmark : c = (f i).cursor ids := hmarks i c hc
  have hst : f i = .element x := standing_of_item (hmark ▸ hitem)
  obtain ⟨front, rfl⟩ := List.getLast?_eq_some_iff.mp (h.last_iff.mp hlast)
  have hx : x ∉ front := fun hmem => (List.disjoint_of_nodup_append h.nodup) hmem List.mem_cons_self
  have hbefore : c.m_nextItem = none := by
    rw [hmark, hst]
    exact follower_middle hx
  have hafter : (f' i).following (front ++ [x] ++ [n]) = some n := by
    have htext : front ++ [x] ++ [n] = front ++ x :: [n] := by simp
    rw [hf i hi, hst, htext]
    exact follower_middle hx
  rw [itemOf_nextIterator hc' hs'', hbefore] at hnext
  exact Option.some_ne_none n (hafter.symm.trans hnext.symm)

theorem not_stable_remove {x : NodeId} (h : s.Mended ids)
    (hx : x ∈ ids) (hstale : ¬s.Fresh x) (hs' : s.removeNode x = some s') : s'.walk ≠ ids.erase x := by
  intro hwalk
  obtain ⟨hthis, hhead⟩ := h.stale hx hstale
  have hfirst : s'.nodes.first = s.nodes.next x := by
    rw [removeNode_eq, hthis] at hs'
    obtain ⟨u, -, hs'⟩ := Option.bind_eq_some_iff.mp hs'
    dsimp only [Option.bind_some] at hs'
    obtain ⟨v, -, hs'⟩ := Option.bind_eq_some_iff.mp hs'
    rw [← Option.some.inj hs']
    show (s.nodes.unlinkFrom .first x).first = _
    unfold Links.unlinkFrom
    cases s.nodes.next x <;> rfl
  obtain ⟨a, b, rfl⟩ := List.append_of_mem hx
  cases a with
  | nil => exact hhead rfl
  | cons y a =>
    have hyx : y ≠ x := fun heq => hhead (congrArg some heq)
    rw [List.cons_append, List.erase_cons_tail (by simpa using hyx)] at hwalk
    have hnext := first_of_walk hwalk
    rw [hfirst, h.next_eq] at hnext
    have hy : y ∈ b := List.mem_of_head? hnext
    exact absurd h.nodup (by simp [hy])

theorem not_stable_insert {x n : NodeId} {data : α} (h : s.Mended ids) (hx : x ∈ ids)
    (hstale : ¬s.Fresh x) (hn : n ∉ s.m_data.keys) (hs' : s.insertBefore x n data = some s') :
    s'.nodes.first ≠ (ids.insertIdx (ids.idxOf x) n).head? := by
  intro hwalk
  obtain ⟨hthis, hhead⟩ := h.stale hx hstale
  have hfirst : s'.nodes.first = some n := by
    rw [insertBefore_eq, hthis] at hs'
    obtain ⟨u, -, hs'⟩ := Option.bind_eq_some_iff.mp hs'
    obtain ⟨v, -, hs'⟩ := Option.bind_eq_some_iff.mp hs'
    dsimp only [Option.bind_some] at hs'
    obtain ⟨w, -, hs'⟩ := Option.bind_eq_some_iff.mp hs'
    rw [← Option.some.inj hs']
    rfl
  obtain ⟨a, b, rfl⟩ := List.append_of_mem hx
  have hxa : x ∉ a := fun hmem => (List.disjoint_of_nodup_append h.nodup) hmem List.mem_cons_self
  rw [hfirst, idxOf_middle hxa, insertIdx_middle] at hwalk
  cases a with
  | nil => exact hhead rfl
  | cons y a =>
    have hny : n = y := Option.some.inj hwalk
    exact hn (h.mem_keys_iff.mpr (by simp [hny]))

theorem not_stable_extractElement (h : s.Mended m.ids) (hmarks : Marks s m) {iter : IterId} {x : NodeId}
    (hx : s.itemOf iter = some x) (hstale : ¬s.Fresh x) {data : Option α}
    (hs' : s.extractElement iter = some (data, s')) : s'.walk ≠ (m.apply (.extractElement iter : Op α)).ids := by
  obtain ⟨c, hc, hitem⟩ := Option.bind_eq_some_iff.mp hx
  have hst : m.standing iter = .element x := standing_of_item (hmarks iter c hc ▸ hitem)
  have hremoved : s.removeNode x = some s' := by
    unfold PtrMultiListBase.extractElement at hs'
    rw [hc] at hs'
    dsimp only [Option.bind_eq_bind, Option.bind_some] at hs'
    rw [hitem] at hs'
    obtain ⟨s₁, hs₁, hs'⟩ := Option.bind_eq_some_iff.mp hs'
    rw [hs₁, (Prod.mk.inj (Option.some.inj hs')).2]
  rw [Marked.apply, hst]
  exact not_stable_remove h ((h.cursorOk hc).item hitem) hstale hremoved

theorem nodes_newIterator {item : Option NodeId} (hs' : s.newIterator i item = some s') :
    s'.nodes = s.nodes := by
  unfold PtrMultiListBase.newIterator at hs'
  split at hs'
  · cases hs'
  · obtain ⟨u, -, hs'⟩ := Option.bind_eq_some_iff.mp hs'
    rw [← Option.some.inj hs']

theorem insertAt_target (h : s.Mended m.ids) (hmarks : Marks s m) {iter : IterId} {c : Cursor} {y n : NodeId}
    (hc : s.cursors.lookup iter = some c) (htarget : c.m_item.or c.m_nextItem = some y) (x : α) :
    s.insertAt c n x = s.insertBefore y n x ∧ (m.insert iter n).ids = m.ids.insertIdx (m.ids.idxOf y) n ∧ y ∈ m.ids := by
  have hmark := hmarks iter c hc
  have hmem := Standing.current_mem h hc hmark
  unfold insertAt Marked.insert
  cases hst : m.standing iter with
  | element z =>
    have hitem : c.m_item = some z := by rw [hmark, hst]; rfl
    rw [hitem, Option.some_or] at htarget
    obtain rfl : z = y := Option.some.inj htarget
    simp only [hitem]
    exact ⟨trivial, trivial, hmem.1 z hst⟩
  | before o =>
    have hitem : c.m_item = none := by rw [hmark, hst]; rfl
    have hnext : c.m_nextItem = o := by rw [hmark, hst]; rfl
    rw [hitem, Option.none_or, hnext] at htarget
    subst htarget
    simp only [hitem, hnext]
    exact ⟨trivial, trivial, hmem.2 y hst⟩

theorem not_stable_insertAtEnd (h : s.Mended m.ids) (hmarks : Marks s m) {iter result : IterId} {n : NodeId} {x : α}
    (hvalid : s.Valid (.insert iter n result x)) (hnull : s.cursors.lookup iter = some ⟨none, none⟩) (hat : s.AtLast) :
    ¬MarkedList.Stable ⟨s.exec (.insert iter n result x), m.apply (.insert iter n result x)⟩ := by
  intro hstable
  obtain ⟨hiter, hn, hresult⟩ := hvalid
  have hst : m.standing iter = .before none := standing_of_null (hmarks iter _ hnull)
  obtain ⟨s₁, hs₁, hcursors₁, hmended₁⟩ := h.insertAtEnd hn x
  have hnew : ∀ y ∈ some n, y ∈ m.ids ++ [n] := by
    rintro y hy
    cases hy
    simp
  obtain ⟨s', hs', -, hcursors, -⟩ := hmended₁.newIterator (hcursors₁ ▸ hresult) hnew
  have hexec : s.exec (.insert iter n result x) = some s' := by
    show s.insert iter n result x = _
    unfold PtrMultiListBase.insert
    rw [hnull]
    dsimp only [Option.bind_eq_bind, Option.bind_some, insertAt]
    rw [hs₁]
    exact hs'
  have happly : m.apply (.insert iter n result x : Op α) =
      ⟨m.ids ++ [n], Function.update m.standing result (.element n)⟩ := by
    rw [Marked.apply, Marked.insert, hst]
    rfl
  have hne (i : IterId) (hi : i ∈ s.cursors.keys) : i ≠ result := fun heq => hresult (heq ▸ hi)
  rw [hexec, happly] at hstable
  refine not_stable_append h hmarks hat (fun i hi => Function.update_of_ne (hne i hi) _ _) (fun i hi => ?_) hstable
  rw [hcursors, Finmap.lookup_insert_of_ne _ (hne i hi), hcursors₁]

theorem not_stable_insertStale (h : s.Mended m.ids) (hmarks : Marks s m) {iter result : IterId} {n : NodeId} {x : α}
    (hn : n ∉ s.m_data.keys) {c : Cursor} {y : NodeId} (hc : s.cursors.lookup iter = some c)
    (htarget : c.m_item.or c.m_nextItem = some y) (hstale : ¬s.Fresh y) (hs' : s.insert iter n result x = some s') :
    s'.walk ≠ (m.insert iter n).ids := by
  intro hwalk
  obtain ⟨s₁, hs₁, hs'⟩ : ∃ s₁, s.insertAt c n x = some s₁ ∧ s₁.newIterator result (some n) = some s' := by
    unfold PtrMultiListBase.insert at hs'
    rw [hc] at hs'
    exact Option.bind_eq_some_iff.mp hs'
  obtain ⟨hinsert, hmarked, hy⟩ := insertAt_target h hmarks hc htarget (n := n) x
  rw [hinsert] at hs₁
  rw [hmarked] at hwalk
  have hfirst : s'.nodes.first = s₁.nodes.first := by rw [nodes_newIterator hs']
  refine not_stable_insert h hy hstale hn hs₁ ?_
  rw [← hfirst]
  cases hids : m.ids.insertIdx (m.ids.idxOf y) n with
  | nil =>
    have hlength := congrArg List.length hids
    rw [List.length_insertIdx_of_le_length (List.idxOf_le_length)] at hlength
    simp at hlength
  | cons z l => exact first_of_walk (hwalk.trans hids)

theorem not_stable_exec (h : s.Mended m.ids) (hmarks : Marks s m) {op : Op α} (hvalid : s.Valid op)
    (hloses : s.LosesPlace op) : ¬MarkedList.Stable ⟨s.exec op, m.apply op⟩ := by
  rcases hloses with happend | hstale
  · cases op with
    | pushBackNew n x =>
      obtain ⟨s', hs', hcursors, -⟩ := h.insertAtEnd hvalid x
      have hs' : s.exec (.pushBackNew n x) = some s' := hs'
      rw [hs']
      exact not_stable_append h hmarks happend (fun _ _ => rfl) fun i _ => by rw [hcursors]
    | insert iter n result x => exact not_stable_insertAtEnd h hmarks hvalid happend.1 happend.2
    | _ => exact happend.elim
  · rintro ⟨s', hs', hwalk, -⟩
    cases op with
    | insert iter n result x =>
      obtain ⟨c, y, hc, htarget, hstale⟩ := hstale
      exact not_stable_insertStale h hmarks hvalid.2.1 hc htarget hstale hs' hwalk
    | erase iter =>
      obtain ⟨y, hy, hstale⟩ := hstale
      obtain ⟨⟨data, s₁⟩, hs₁, hs'⟩ := Option.bind_eq_some_iff.mp hs'
      cases hs'
      exact not_stable_extractElement h hmarks hy hstale hs₁ hwalk
    | extractElement iter =>
      obtain ⟨y, hy, hstale⟩ := hstale
      obtain ⟨⟨data, s₁⟩, hs₁, hs'⟩ := Option.map_eq_some_iff.mp hs'
      cases hs'
      exact not_stable_extractElement h hmarks hy hstale hs₁ hwalk
    | _ => exact hstale.elim

end breaks

/-! ### Runs -/

namespace MarkedList

variable {α : Type}

def StableInv (m : MarkedList α) : Prop := ∃ s, m.list = some s ∧ s.Mended m.marks.ids ∧ Marks s m.marks

theorem StableInv.stable {m : MarkedList α} (h : StableInv m) : Stable m := by
  obtain ⟨s, hs, hmended, hmarks⟩ := h
  refine ⟨s, hs, hmended.walk_eq, fun i hi => ?_⟩
  obtain ⟨c, hc⟩ := mem_keys_iff.mp hi
  obtain ⟨s', hs', -, -⟩ := follows_nextIterator hmended hmarks hi
  refine ⟨?_, s', hs', ?_⟩
  · rw [itemOf, hc, hmarks i c hc]
    rfl
  · rw [itemOf_nextIterator hc hs', hmarks i c hc]
    rfl

theorem stableInv_new : StableInv (new : MarkedList α) := by
  obtain ⟨s, ids, its, hs, hwf, -⟩ := runInv_new α
  cases hs
  have hwalk : ids = [] := hwf.nodes.walk_eq.symm
  subst hwalk
  refine ⟨_, rfl, .of_wellFormed hwf, fun i c hc => ?_⟩
  simp [PtrMultiListBase.new] at hc

def Loses (m : MarkedList α) (op : Op α) : Prop := ∃ s, m.list = some s ∧ s.LosesPlace op

theorem step_eq {m m' : MarkedList α} {op : Op α} {s : PtrMultiListBase α} (hs : m.list = some s)
    (hm : step m op = some m') : s.Valid op ∧ m' = ⟨s.exec op, m.marks.apply op⟩ := by
  unfold step at hm
  rw [hs] at hm
  dsimp only at hm
  split at hm
  · next hvalid => exact ⟨hvalid, (Option.some.inj hm).symm⟩
  · cases hm

theorem StableInv.step {m m' : MarkedList α} {op : Op α} (hm : MarkedList.step m op = some m') (h : StableInv m)
    (hop : ¬Loses m op) : StableInv m' := by
  obtain ⟨s, hs, hmended, hmarks⟩ := h
  obtain ⟨hvalid, rfl⟩ := step_eq hs hm
  obtain ⟨s', hs', hmended', hmarks'⟩ := follows_exec hmended hmarks hvalid fun hbad => hop ⟨s, hs, hbad⟩
  exact ⟨s', hs', hmended', hmarks'⟩

theorem StableInv.step_loses {m m' : MarkedList α} {op : Op α} (hm : MarkedList.step m op = some m')
    (h : StableInv m) (hop : ¬¬Loses m op) : ¬Stable m' := by
  obtain ⟨s, hs, hmended, hmarks⟩ := h
  obtain ⟨hvalid, rfl⟩ := step_eq hs hm
  obtain ⟨s₁, hs₁, hbad⟩ := not_not.mp hop
  cases hs.symm.trans hs₁
  exact not_stable_exec hmended hmarks hvalid hbad

/-- Along every run from an empty list, all iterators are where they should be and `next` leads them on as it should,
exactly if nothing is appended behind an iterator at the last element, and no element with a stale back pointer is
removed or inserted before. -/
theorem run_stable_iff (ops : List (Op α)) :
    (∀ t ∈ Run.trace step (new : MarkedList α) ops, Stable t.post) ↔
      ∀ t ∈ Run.trace step (new : MarkedList α) ops, ¬Loses t.pre t.act :=
  Run.forall_post_iff (I := StableInv) (C := fun m op => ¬Loses m op) StableInv.stable StableInv.step
    StableInv.step_loses stableInv_new ops

/-- An iterator at the only element, behind which another one is appended: `next` leads to the end. -/
theorem append_loses_place :
    ¬∀ ops : List (Op Nat), ∀ t ∈ Run.trace step (new : MarkedList Nat) ops, Stable t.post := by
  intro h
  obtain ⟨s, hs, -, hall⟩ := h [.pushBackNew 1 10, .beginIterator 7, .pushBackNew 2 20]
    ⟨_, .pushBackNew 2 20, _⟩ (List.mem_cons_of_mem _ (List.mem_cons_of_mem _ List.mem_cons_self))
  obtain rfl := Option.some.inj hs
  obtain ⟨-, s', hs', hitem⟩ := hall 7 (by decide)
  rw [itemOf_nextIterator (c := ⟨some 1, none⟩) (by decide) hs'] at hitem
  exact absurd hitem (by decide)

end MarkedList

end Afl.Container
