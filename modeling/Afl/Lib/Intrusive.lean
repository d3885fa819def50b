import Mathlib.Data.List.Nodup
import Mathlib.Logic.Function.Basic

/-!
# Almost doubly-linked lists

An intrusive list in which every member stores a pointer to the next one and a pointer to the pointer at
itself. The places that can point at a member are the slots: the head of the list and the `next` field of
each member. `Listed L l` says that the links `L` hold exactly the sequence `l`. The two edits, `linkAt` and
`unlink`, are shown to insert and remove one member.
-/

namespace Intrusive

variable {ι : Type}

/-- A place that holds a pointer to a member. -/
inductive Slot (ι : Type)
  | first
  | next (n : ι)
deriving DecidableEq

/-- The pointers of a list: its head, and both fields of every member. `pThis` is null for a member that is
in no list. -/
structure Links (ι : Type) where
  first : Option ι
  next : ι → Option ι
  pThis : ι → Option (Slot ι)

/-- The slot after a sequence of members that starts in the slot `s`. -/
def endSlot : Slot ι → List ι → Slot ι
  | s, [] => s
  | _, n :: l => endSlot (.next n) l

/-- The slots that point at the members of a sequence that starts in the slot `s`. -/
def slots : Slot ι → List ι → List (Slot ι)
  | _, [] => []
  | s, n :: l => s :: slots (.next n) l

namespace Links

/-- The pointer stored in a slot. -/
def read (L : Links ι) : Slot ι → Option ι
  | .first => L.first
  | .next n => L.next n

/-- From the slot `s` on, the members are linked both ways. -/
def Path (L : Links ι) : Slot ι → List ι → Prop
  | _, [] => True
  | s, n :: l => L.read s = some n ∧ L.pThis n = some s ∧ Path L (.next n) l

/-- The links hold exactly the sequence `l`. -/
structure Listed (L : Links ι) (l : List ι) : Prop where
  nodup : l.Nodup
  path : L.Path .first l
  last : L.read (endSlot .first l) = none

/-- The members found from a pointer by following at most `fuel` pointers. -/
def walkFrom (L : Links ι) : Nat → Option ι → List ι
  | 0, _ => []
  | _, none => []
  | fuel + 1, some n => n :: walkFrom L fuel (L.next n)

/-- The members found from the head. -/
def walk (L : Links ι) (fuel : Nat) : List ι := L.walkFrom fuel L.first

variable [DecidableEq ι]

/-- Store a pointer in a slot. -/
def write (L : Links ι) (s : Slot ι) (p : Option ι) : Links ι :=
  match s with
  | .first => { L with first := p }
  | .next n => { L with next := Function.update L.next n p }

/-- Store the pointer to the pointer at a member. -/
def setPThis (L : Links ι) (n : ι) (p : Option (Slot ι)) : Links ι :=
  { L with pThis := Function.update L.pThis n p }

/-- Insert `n` before whatever the slot points at. -/
def linkAt (L : Links ι) (s : Slot ι) (n : ι) : Links ι :=
  let L₁ := ((L.write (.next n) (L.read s)).setPThis n (some s)).write s (some n)
  match L.read s with
  | none => L₁
  | some m => L₁.setPThis m (some (.next n))

/-- Let the pointer at `n` in the slot `s` point past it. -/
def unlinkFrom (L : Links ι) (s : Slot ι) (n : ι) : Links ι :=
  let L₁ := L.write s (L.next n)
  match L.next n with
  | none => L₁
  | some m => L₁.setPThis m (some s)

/-! ### Reading after a write -/

@[simp] theorem read_write_self (L : Links ι) (s : Slot ι) (p : Option ι) : (L.write s p).read s = p := by
  cases s <;> simp [write, read]

theorem read_write_of_ne (L : Links ι) {s r : Slot ι} (h : r ≠ s) (p : Option ι) :
    (L.write s p).read r = L.read r := by
  cases s with
  | first =>
    cases r with
    | first => exact absurd rfl h
    | next m => rfl
  | next n =>
    cases r with
    | first => rfl
    | next m =>
      have hmn : m ≠ n := fun heq => h (by rw [heq])
      simp [write, read, Function.update_of_ne hmn]

@[simp] theorem pThis_write (L : Links ι) (s : Slot ι) (p : Option ι) : (L.write s p).pThis = L.pThis := by
  cases s <;> rfl

@[simp] theorem read_setPThis (L : Links ι) (n : ι) (p : Option (Slot ι)) (s : Slot ι) :
    (L.setPThis n p).read s = L.read s := by
  cases s <;> rfl

@[simp] theorem pThis_setPThis_self (L : Links ι) (n : ι) (p : Option (Slot ι)) :
    (L.setPThis n p).pThis n = p := by
  simp [setPThis]

theorem pThis_setPThis_of_ne (L : Links ι) {n m : ι} (h : m ≠ n) (p : Option (Slot ι)) :
    (L.setPThis n p).pThis m = L.pThis m := by
  simp [setPThis, Function.update_of_ne h]

theorem write_setPThis (L : Links ι) (n : ι) (b : Option (Slot ι)) (s : Slot ι) (p : Option ι) :
    (L.setPThis n b).write s p = (L.write s p).setPThis n b := by
  cases s <;> rfl

end Links

/-! ### Slots of a sequence -/

theorem endSlot_append (s : Slot ι) (a b : List ι) : endSlot s (a ++ b) = endSlot (endSlot s a) b := by
  induction a generalizing s with
  | nil => rfl
  | cons n a ih => exact ih (.next n)

variable {n : ι} {l : List ι}

theorem endSlot_eq_next : ∃ m ∈ n :: l, endSlot (.next n) l = .next m := by
  induction l generalizing n with
  | nil => exact ⟨n, by simp, rfl⟩
  | cons m l ih =>
    obtain ⟨k, hk, heq⟩ := @ih m
    exact ⟨k, List.mem_cons_of_mem _ hk, heq⟩

theorem mem_slots {s r : Slot ι} (h : r ∈ slots s l) : r = s ∨ ∃ m ∈ l, r = .next m := by
  induction l generalizing s with
  | nil => simp [slots] at h
  | cons n l ih =>
    rw [slots, List.mem_cons] at h
    rcases h with h | h
    · exact .inl h
    · rcases ih h with h | ⟨m, hm, h⟩
      · exact .inr ⟨n, by simp, h⟩
      · exact .inr ⟨m, List.mem_cons_of_mem _ hm, h⟩

variable {s : Slot ι}

theorem endSlot_notMem_slots (hl : l.Nodup) (hs : ∀ m ∈ l, s ≠ .next m) :
    endSlot s l ∉ slots s l := by
  induction l generalizing s with
  | nil => simp [slots]
  | cons n l ih =>
    obtain ⟨hn, hl⟩ := List.nodup_cons.mp hl
    rw [endSlot, slots, List.mem_cons]
    rintro (h | h)
    · obtain ⟨m, hm, heq⟩ := @endSlot_eq_next _ n l
      exact hs m hm (by rw [← h, heq])
    · refine ih hl (fun m hm heq => ?_) h
      cases heq
      exact hn hm

theorem endSlot_first_ne_next (hn : n ∉ l) : endSlot .first l ≠ .next n := by
  cases l with
  | nil => exact fun heq => by cases heq
  | cons k l =>
    obtain ⟨m, hm, heq⟩ := @endSlot_eq_next _ k l
    rw [endSlot, heq]
    intro h
    cases h
    exact hn hm

theorem next_notMem_slots_first (hn : n ∉ l) : .next n ∉ slots (.first : Slot ι) l := by
  intro h
  rcases mem_slots h with h | ⟨m, hm, h⟩
  · cases h
  · cases h
    exact hn hm

theorem endSlot_first_notMem_slots (hl : l.Nodup) : endSlot .first l ∉ slots (.first : Slot ι) l :=
  endSlot_notMem_slots hl fun m _ heq => by cases heq

namespace Links

/-! ### Paths -/

variable {L : Links ι} {a b : List ι}

theorem path_append :
    L.Path s (a ++ b) ↔ L.Path s a ∧ L.Path (endSlot s a) b := by
  induction a generalizing s with
  | nil => simp [Path, endSlot]
  | cons n a ih => simp [Path, endSlot, ih, and_assoc]

theorem Path.congr {L L' : Links ι} (h : L.Path s l)
    (hread : ∀ r ∈ slots s l, L'.read r = L.read r) (hback : ∀ n ∈ l, L'.pThis n = L.pThis n) :
    L'.Path s l := by
  induction l generalizing s with
  | nil => trivial
  | cons n l ih =>
    obtain ⟨h₁, h₂, h₃⟩ := h
    refine ⟨?_, ?_, ?_⟩
    · rw [hread s (by simp [slots]), h₁]
    · rw [hback n (by simp), h₂]
    · exact ih h₃ (fun r hr => hread r (by simp [slots, hr])) fun m hm => hback m (by simp [hm])

theorem Listed.read_endSlot (h : L.Listed (a ++ b)) :
    L.read (endSlot .first a) = b.head? := by
  cases b with
  | nil => simpa using h.last
  | cons m b => exact (path_append.mp h.path).2.1

theorem Listed.pThis_eq (h : L.Listed (a ++ n :: b)) :
    L.pThis n = some (endSlot .first a) :=
  (path_append.mp h.path).2.2.1

theorem Listed.next_eq (h : L.Listed (a ++ n :: b)) :
    L.next n = b.head? := by
  have hsplit : L.Listed ((a ++ [n]) ++ b) := by simpa using h
  have hread := hsplit.read_endSlot
  rwa [endSlot_append] at hread

theorem Listed.read_pThis (h : L.Listed l) (hn : n ∈ l) :
    ∃ s, L.pThis n = some s ∧ L.read s = some n := by
  obtain ⟨a, b, rfl⟩ := List.append_of_mem hn
  exact ⟨_, h.pThis_eq, h.read_endSlot⟩

theorem walkFrom_eq {fuel : Nat} (hpath : L.Path s l)
    (hlast : L.read (endSlot s l) = none) (hfuel : l.length ≤ fuel) : L.walkFrom fuel (L.read s) = l := by
  induction l generalizing s fuel with
  | nil =>
    have hnone : L.read s = none := hlast
    rw [hnone]
    cases fuel <;> rfl
  | cons n l ih =>
    obtain ⟨h₁, -, h₃⟩ := hpath
    obtain ⟨fuel, rfl⟩ : ∃ k, fuel = k + 1 := ⟨fuel - 1, by simp at hfuel; omega⟩
    rw [h₁]
    have hrest := ih h₃ hlast (by simpa using hfuel)
    exact congrArg (n :: ·) hrest

theorem Listed.walk_eq {fuel : Nat} (h : L.Listed l) (hfuel : l.length ≤ fuel) :
    L.walk fuel = l :=
  walkFrom_eq h.path h.last hfuel

/-! ### The edits -/

theorem listed_empty (next : ι → Option ι) (pThis : ι → Option (Slot ι)) :
    Listed ⟨none, next, pThis⟩ ([] : List ι) :=
  ⟨List.nodup_nil, trivial, rfl⟩

/-- Replace the members between `a` and `b`: the new links must agree with the old ones inside `a` and `b`, link
the new members, and close the seam to `b`. -/
theorem Listed.splice {L L' : Links ι} {a c e b : List ι} (h : L.Listed (a ++ (c ++ b)))
    (hnodup : (a ++ (e ++ b)).Nodup) (hread : ∀ r ∈ slots .first a, L'.read r = L.read r)
    (hback : ∀ m ∈ a, L'.pThis m = L.pThis m) (hmid : L'.Path (endSlot .first a) e)
    (hseam : L'.read (endSlot (endSlot .first a) e) = b.head?)
    (hseamBack : ∀ m ∈ b.head?, L'.pThis m = some (endSlot (endSlot .first a) e))
    (hnext : ∀ m ∈ b, L'.next m = L.next m) (hback' : ∀ m ∈ b.tail, L'.pThis m = L.pThis m) :
    L'.Listed (a ++ (e ++ b)) := by
  have hsplit := path_append.mp h.path
  have hsplit₂ := path_append.mp hsplit.2
  have hlast := h.last
  rw [endSlot_append, endSlot_append] at hlast
  refine ⟨hnodup, ?_, ?_⟩
  · refine path_append.mpr ⟨hsplit.1.congr hread hback, path_append.mpr ⟨hmid, ?_⟩⟩
    cases b with
    | nil => trivial
    | cons m b =>
      refine ⟨hseam, hseamBack m rfl, hsplit₂.2.2.2.congr (fun r hr => ?_) hback'⟩
      rcases mem_slots hr with rfl | ⟨k, hk, rfl⟩
      · exact hnext m (by simp)
      · exact hnext k (by simp [hk])
  · rw [endSlot_append, endSlot_append]
    cases b with
    | nil => exact hseam
    | cons m b =>
      obtain ⟨k, hk, heq⟩ := @endSlot_eq_next _ m b
      rw [endSlot, heq] at hlast ⊢
      exact (hnext k hk).trans hlast

variable [DecidableEq ι]

theorem read_linkAt_self (L : Links ι) (s : Slot ι) (n : ι) : (L.linkAt s n).read s = some n := by
  unfold Links.linkAt
  cases L.read s <;> simp

theorem read_linkAt_next (L : Links ι) (hs : s ≠ .next n) :
    (L.linkAt s n).read (.next n) = L.read s := by
  unfold Links.linkAt
  cases h : L.read s <;> simp [read_write_of_ne _ hs.symm]

theorem read_linkAt_of_ne (L : Links ι) {s r : Slot ι} (hs : r ≠ s) (hn : r ≠ .next n) :
    (L.linkAt s n).read r = L.read r := by
  unfold Links.linkAt
  cases h : L.read s <;> simp [read_write_of_ne _ hs, read_write_of_ne _ hn]

theorem pThis_linkAt_self (L : Links ι) (hs : L.read s ≠ some n) :
    (L.linkAt s n).pThis n = some s := by
  unfold Links.linkAt
  cases h : L.read s with
  | none => simp
  | some m =>
    have hne : n ≠ m := fun heq => hs (by rw [h, heq])
    simp [pThis_setPThis_of_ne _ hne]

theorem pThis_linkAt_head (L : Links ι) {m : ι} (hs : L.read s = some m) (n : ι) :
    (L.linkAt s n).pThis m = some (.next n) := by
  unfold Links.linkAt
  simp [hs]

theorem pThis_linkAt_of_ne (L : Links ι) {n m : ι} (hn : m ≠ n) (hs : L.read s ≠ some m) :
    (L.linkAt s n).pThis m = L.pThis m := by
  unfold Links.linkAt
  cases h : L.read s with
  | none => simp [pThis_setPThis_of_ne _ hn]
  | some k =>
    have hne : m ≠ k := fun heq => hs (by rw [h, heq])
    simp [pThis_setPThis_of_ne _ hne, pThis_setPThis_of_ne _ hn]

theorem Listed.linkAt (h : L.Listed (a ++ b)) (hn : n ∉ a ++ b) :
    (L.linkAt (endSlot .first a) n).Listed (a ++ n :: b) := by
  have hna : n ∉ a := fun hmem => hn (by simp [hmem])
  have hnb : n ∉ b := fun hmem => hn (by simp [hmem])
  have hdisjoint := List.disjoint_of_nodup_append h.nodup
  have hhead := h.read_endSlot
  have hendN : endSlot .first a ≠ .next n := endSlot_first_ne_next hna
  refine Listed.splice (c := []) (e := [n]) h ?_ (fun r hr => ?_) (fun m hm => ?_) ?_ ?_ (fun m hm => ?_)
    (fun m hm => ?_) fun m hm => ?_
  · have hperm : (a ++ n :: b).Perm (n :: (a ++ b)) := List.perm_middle
    exact hperm.nodup_iff.mpr (List.nodup_cons.mpr ⟨hn, h.nodup⟩)
  · refine read_linkAt_of_ne L (fun heq => ?_) fun heq => ?_
    · exact endSlot_first_notMem_slots (List.nodup_append.mp h.nodup).1 (heq ▸ hr)
    · exact next_notMem_slots_first hna (heq ▸ hr)
  · refine pThis_linkAt_of_ne L (fun heq => hna (heq ▸ hm)) fun heq => ?_
    rw [hhead] at heq
    exact hdisjoint hm (List.mem_of_head? heq)
  · refine ⟨read_linkAt_self L _ n, pThis_linkAt_self L fun heq => ?_, trivial⟩
    rw [hhead] at heq
    exact hnb (List.mem_of_head? heq)
  · exact (read_linkAt_next L hendN).trans hhead
  · exact pThis_linkAt_head L (hhead.trans hm) n
  · have hne : (.next m : Slot ι) ≠ endSlot .first a := (endSlot_first_ne_next fun ha => hdisjoint ha hm).symm
    exact read_linkAt_of_ne L hne fun heq => by cases heq; exact hnb hm
  · have hmb : m ∈ b := List.mem_of_mem_tail hm
    refine pThis_linkAt_of_ne L (fun heq => hnb (heq ▸ hmb)) fun heq => ?_
    rw [hhead] at heq
    cases b with
    | nil => simp at hm
    | cons k b =>
      cases heq
      exact (List.nodup_cons.mp (List.nodup_append.mp h.nodup).2.1).1 hm

theorem read_unlinkFrom_self (L : Links ι) (s : Slot ι) (n : ι) : (L.unlinkFrom s n).read s = L.next n := by
  unfold unlinkFrom
  cases h : L.next n <;> simp

theorem read_unlinkFrom_of_ne (L : Links ι) {s r : Slot ι} (hs : r ≠ s) (n : ι) :
    (L.unlinkFrom s n).read r = L.read r := by
  unfold unlinkFrom
  cases h : L.next n <;> simp [read_write_of_ne _ hs]

theorem pThis_unlinkFrom_next (L : Links ι) (s : Slot ι) {n m : ι} (hn : L.next n = some m) :
    (L.unlinkFrom s n).pThis m = some s := by
  unfold unlinkFrom
  simp [hn]

theorem pThis_unlinkFrom_of_ne (L : Links ι) (s : Slot ι) {n m : ι} (hn : L.next n ≠ some m) :
    (L.unlinkFrom s n).pThis m = L.pThis m := by
  unfold unlinkFrom
  cases h : L.next n with
  | none => simp
  | some k =>
    have hne : m ≠ k := fun heq => hn (by rw [h, heq])
    simp [pThis_setPThis_of_ne _ hne]

theorem Listed.unlinkFrom (h : L.Listed (a ++ n :: b)) :
    (L.unlinkFrom (endSlot .first a) n).Listed (a ++ b) := by
  have hdisjoint := List.disjoint_of_nodup_append h.nodup
  have hnext := h.next_eq
  have hnb : n ∉ b := (List.nodup_cons.mp (List.nodup_append.mp h.nodup).2.1).1
  have hdisjointB : ∀ m ∈ b, m ∉ a := fun m hm ha => hdisjoint ha (List.mem_cons_of_mem _ hm)
  refine Listed.splice (c := [n]) (e := []) h ?_ (fun r hr => ?_) (fun m hm => ?_) trivial ?_ (fun m hm => ?_)
    (fun m hm => ?_) fun m hm => ?_
  · exact h.nodup.sublist (List.Sublist.append_left (List.sublist_cons_self n b) a)
  · refine read_unlinkFrom_of_ne L (fun heq => ?_) n
    exact endSlot_first_notMem_slots (List.nodup_append.mp h.nodup).1 (heq ▸ hr)
  · refine pThis_unlinkFrom_of_ne L _ fun heq => ?_
    rw [hnext] at heq
    exact hdisjointB m (List.mem_of_head? heq) hm
  · exact (read_unlinkFrom_self L _ n).trans hnext
  · exact pThis_unlinkFrom_next L _ (hnext.trans hm)
  · exact read_unlinkFrom_of_ne L (endSlot_first_ne_next (hdisjointB m hm)).symm n
  · refine pThis_unlinkFrom_of_ne L _ fun heq => ?_
    rw [hnext] at heq
    cases b with
    | nil => simp at hm
    | cons k b =>
      cases heq
      exact (List.nodup_cons.mp (List.nodup_cons.mp (List.nodup_append.mp h.nodup).2.1).2).1 hm

/-! ### Members outside the list -/

theorem Listed.write_next (h : L.Listed l) (hn : n ∉ l) (p : Option ι) :
    (L.write (.next n) p).Listed l := by
  refine ⟨h.nodup, h.path.congr (fun r hr => ?_) fun m _ => by simp, ?_⟩
  · have hne : r ≠ .next n := fun heq => next_notMem_slots_first hn (heq ▸ hr)
    exact read_write_of_ne L hne p
  · rw [read_write_of_ne L (endSlot_first_ne_next hn) p]
    exact h.last

theorem Listed.setPThis (h : L.Listed l) (hn : n ∉ l) (p : Option (Slot ι)) :
    (L.setPThis n p).Listed l := by
  refine ⟨h.nodup, h.path.congr (fun r _ => by simp) fun m hm => ?_, by simpa using h.last⟩
  have hne : m ≠ n := fun heq => hn (heq ▸ hm)
  exact pThis_setPThis_of_ne L hne p

end Links

end Intrusive
