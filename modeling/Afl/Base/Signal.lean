import Afl.Lib.Intrusive
import Mathlib.Data.List.Perm.Subperm

/-!
# Signals and connections

A `Signal` owns a list of handlers in which every handler points at the next one and at the pointer at itself; a
`SignalConnection` points at one handler and is cleared through a back link when the handler is deleted. The heap is
modelled pointer by pointer, and an operation that touches a deleted object, or whose assertions fail, has no result.
-/

namespace Afl.Base

open Intrusive

variable {σ κ : Type}

/-- A pointer to a signal handler: the signal it was made for, and the number of the allocation. -/
structure SignalHandler (σ : Type) where
  signal : σ
  block : Nat
deriving DecidableEq

/-- The signals `σ`, their handlers and the connections `κ`. `links` has the field `m_list` of each signal, and the
fields `m_next` and `m_pNext` of its handlers. -/
structure SignalHeap (σ κ : Type) where
  links : σ → Links Nat
  pBacklink : SignalHandler σ → Option κ
  handler : κ → Option (SignalHandler σ)
  /-- The objects that exist. -/
  alive : σ → Bool
  built : κ → Bool
  live : SignalHandler σ → Bool
  /-- The number of the next allocation. -/
  fresh : Nat

namespace SignalHeap

def empty : SignalHeap σ κ where
  links _ := ⟨none, fun _ => none, fun _ => none⟩
  pBacklink _ := none
  handler _ := none
  alive _ := false
  built _ := false
  live _ := false
  fresh := 0

def holds (H : SignalHeap σ κ) (s : σ) : Slot Nat → Bool
  | .first => H.alive s
  | .next m => H.live ⟨s, m⟩

variable [DecidableEq σ] [DecidableEq κ]

/-- `addNewClosure`: `new SignalHandlerClosure(&m_list, closure)`, whose base class constructor links the handler to the
next one, and the assignment to `m_list`. -/
def addNewClosure (H : SignalHeap σ κ) (s : σ) : Option (SignalHeap σ κ) := do
  let n := H.fresh
  let L := H.links s
  guard (∀ m ∈ L.first, H.live ⟨s, m⟩ = true)
  let L₁ := (L.setPThis n (some .first)).write (.next n) L.first
  let L₂ := match L.first with
    | none => L₁
    | some m => L₁.setPThis m (some (.next n))
  some { H with
    links := Function.update H.links s (L₂.write .first (some n))
    pBacklink := Function.update H.pBacklink ⟨s, n⟩ none
    live := Function.update H.live ⟨s, n⟩ true
    fresh := n + 1 }

/-- `delete` of a handler: the destructor `~SignalHandler`. -/
def delete (H : SignalHeap σ κ) (h : SignalHandler σ) : Option (SignalHeap σ κ) := do
  guard (H.live h = true)
  let L := H.links h.signal
  let pNext ← L.pThis h.block
  guard (H.holds h.signal pNext = true ∧ L.read pNext = some h.block)
  guard (∀ m ∈ L.next h.block, H.live ⟨h.signal, m⟩ = true ∧ L.pThis m = some (.next h.block))
  let L₁ := match L.next h.block with
    | none => L
    | some m => L.setPThis m (some pNext)
  let H₁ := { H with
    links := Function.update H.links h.signal (L₁.write pNext (L.next h.block))
    live := Function.update H.live h false }
  match H.pBacklink h with
  | none => some H₁
  | some c => do
    guard (H.built c = true ∧ H.handler c = some h)
    some { H₁ with handler := Function.update H.handler c none }

/-- `delete` of a pointer that may be null. -/
def deletePtr (H : SignalHeap σ κ) : Option (SignalHandler σ) → Option (SignalHeap σ κ)
  | none => some H
  | some h => H.delete h

/-- `m_handler = newHandler`, and `m_handler->backlink(&m_handler)` if it is not null. -/
def attach (H : SignalHeap σ κ) (c : κ) (newHandler : Option (SignalHandler σ)) : Option (SignalHeap σ κ) :=
  let H₁ := { H with handler := Function.update H.handler c newHandler }
  match newHandler with
  | none => some H₁
  | some h => do
    guard (H.live h = true ∧ H.pBacklink h = none)
    some { H₁ with pBacklink := Function.update H.pBacklink h (some c) }

/-- `SignalConnection(handler)`. -/
def construct (H : SignalHeap σ κ) (c : κ) (handler : Option (SignalHandler σ)) : Option (SignalHeap σ κ) :=
  attach { H with built := Function.update H.built c true } c handler

/-- `SignalConnection::operator=`. -/
def assign (H : SignalHeap σ κ) (c : κ) (newHandler : Option (SignalHandler σ)) : Option (SignalHeap σ κ) :=
  if H.handler c ≠ newHandler then do
    let H₁ ← H.deletePtr (H.handler c)
    guard (H₁.handler c = none)
    H₁.attach c newHandler
  else some H

def disconnect (H : SignalHeap σ κ) (c : κ) : Option (SignalHeap σ κ) := H.deletePtr (H.handler c)

def destroyConnection (H : SignalHeap σ κ) (c : κ) : Option (SignalHeap σ κ) := do
  let H₁ ← H.deletePtr (H.handler c)
  some { H₁ with built := Function.update H₁.built c false }

/-- `while (m_list) delete m_list;` with a bound on the rounds. -/
def deleteAll (s : σ) : Nat → SignalHeap σ κ → Option (SignalHeap σ κ)
  | fuel, H =>
    match (H.links s).first with
    | none => some H
    | some n =>
      match fuel with
      | 0 => none
      | fuel + 1 => (H.delete ⟨s, n⟩).bind (deleteAll s fuel)

def constructSignal (H : SignalHeap σ κ) (s : σ) : SignalHeap σ κ :=
  { H with
    links := Function.update H.links s { H.links s with first := none }
    alive := Function.update H.alive s true }

/-- `~SignalBaseBase`. Every handler was allocated, so `fresh` rounds are enough. -/
def destroySignal (H : SignalHeap σ κ) (s : σ) : Option (SignalHeap σ κ) := do
  let H₁ ← deleteAll s H.fresh H
  some { H₁ with alive := Function.update H₁.alive s false }

end SignalHeap

/-! ## The heap invariant -/

namespace SignalHeap

/-- Every signal's list is linked both ways and has exactly its live handlers, and a connection and its handler point at
each other. -/
structure Ok (H : SignalHeap σ κ) (order : σ → List Nat) : Prop where
  listed : ∀ s, (H.links s).Listed (order s)
  live : ∀ h, H.live h = true ↔ h.block ∈ order h.signal
  alive : ∀ s, order s ≠ [] → H.alive s = true
  bound : ∀ s, ∀ n ∈ order s, n < H.fresh
  handler : ∀ c h, H.handler c = some h → H.built c = true ∧ H.live h = true ∧ H.pBacklink h = some c
  backlink : ∀ h c, H.live h = true → H.pBacklink h = some c → H.handler c = some h

variable {H : SignalHeap σ κ} {order : σ → List Nat}

theorem Ok.empty : Ok (SignalHeap.empty : SignalHeap σ κ) fun _ => [] where
  listed _ := Links.listed_empty _ _
  live h := by simp [SignalHeap.empty]
  alive s h := absurd rfl h
  bound s n hn := absurd hn List.not_mem_nil
  handler c h hc := by simp [SignalHeap.empty] at hc
  backlink h c hl := by simp [SignalHeap.empty] at hl

theorem Ok.first_eq (hok : H.Ok order) (s : σ) : (H.links s).first = (order s).head? :=
  (show (H.links s).Listed ([] ++ order s) from hok.listed s).read_endSlot

theorem Ok.holds_endSlot (hok : H.Ok order) {s : σ} {a b : List Nat} {n : Nat} (h : order s = a ++ n :: b) :
    H.holds s (endSlot .first a) = true := by
  rcases a with _ | ⟨k, a⟩
  · apply hok.alive s
    rw [h]
    simp
  · obtain ⟨m, hm, heq⟩ := @endSlot_eq_next _ k a
    rw [endSlot, heq]
    apply (hok.live ⟨s, m⟩).mpr
    rw [h]
    exact List.mem_append_left _ hm

theorem linkAt_first (L : Links Nat) (n : Nat) :
    (match L.first with
      | none => (L.setPThis n (some .first)).write (.next n) L.first
      | some m => ((L.setPThis n (some .first)).write (.next n) L.first).setPThis m (some (.next n))).write
        .first (some n) = L.linkAt .first n := by
  unfold Links.linkAt
  rcases h : L.first with _ | m <;> simp [Links.read, h, Links.write_setPThis]

theorem unlinkFrom_eq (L : Links Nat) (s : Slot Nat) (n : Nat) :
    (match L.next n with
      | none => L
      | some m => L.setPThis m (some s)).write s (L.next n) = L.unlinkFrom s n := by
  unfold Links.unlinkFrom
  rcases h : L.next n with _ | m <;> simp [Links.write_setPThis]

theorem Ok.length_le (hok : H.Ok order) (s : σ) : (order s).length ≤ H.fresh := by
  have hsub : order s ⊆ List.range H.fresh := fun n hn => List.mem_range.mpr (hok.bound s n hn)
  have hle := (List.subperm_of_subset (hok.listed s).nodup hsub).length_le
  rwa [List.length_range] at hle

theorem Ok.fresh_notMem (hok : H.Ok order) (s : σ) : H.fresh ∉ order s :=
  fun hmem => Nat.lt_irrefl _ (hok.bound s _ hmem)

variable [DecidableEq σ]

def added (H : SignalHeap σ κ) (s : σ) : SignalHeap σ κ :=
  { H with
    links := Function.update H.links s ((H.links s).linkAt .first H.fresh)
    pBacklink := Function.update H.pBacklink ⟨s, H.fresh⟩ none
    live := Function.update H.live ⟨s, H.fresh⟩ true
    fresh := H.fresh + 1 }

/-- The heap after a handler was deleted from the slot `p`. -/
def removed (H : SignalHeap σ κ) (h : SignalHandler σ) (p : Slot Nat) : SignalHeap σ κ :=
  { H with
    links := Function.update H.links h.signal ((H.links h.signal).unlinkFrom p h.block)
    live := Function.update H.live h false
    handler := fun c => if H.handler c = some h then none else H.handler c }

theorem Ok.addNewClosure_eq (hok : H.Ok order) (s : σ) : H.addNewClosure s = some (H.added s) := by
  have hhead : ∀ m ∈ (H.links s).first, H.live ⟨s, m⟩ = true := by
    intro m hm
    rw [hok.first_eq] at hm
    exact (hok.live ⟨s, m⟩).mpr (List.mem_of_mem_head? hm)
  unfold SignalHeap.addNewClosure
  simp only [guard, if_pos hhead, Option.pure_def, Option.bind_eq_bind, Option.bind_some]
  rw [linkAt_first]
  rfl

theorem Ok.added (hok : H.Ok order) {s : σ} (hs : H.alive s = true) :
    (H.added s).Ok (Function.update order s (H.fresh :: order s)) := by
  have hdead : H.live ⟨s, H.fresh⟩ ≠ true := fun h => hok.fresh_notMem s ((hok.live _).mp h)
  refine ⟨fun t => ?_, fun h => ?_, fun t ht => ?_, fun t n hn => ?_, fun c h hc => ?_, fun h c hl hb => ?_⟩
  · by_cases ht : t = s
    · subst ht
      simp only [SignalHeap.added, Function.update_self]
      exact (show (H.links t).Listed ([] ++ order t) from hok.listed t).linkAt (hok.fresh_notMem t)
    · simpa only [SignalHeap.added, Function.update_of_ne ht] using hok.listed t
  · by_cases hh : h = ⟨s, H.fresh⟩
    · subst hh
      simp [SignalHeap.added]
    · by_cases ht : h.signal = s
      · have hne : h.block ≠ H.fresh := fun heq => hh (by rw [← ht, ← heq])
        simp [SignalHeap.added, Function.update_of_ne hh, hok.live h, ht, hne]
      · simp [SignalHeap.added, Function.update_of_ne hh, hok.live h, Function.update_of_ne ht]
  · by_cases hts : t = s
    · rw [hts]
      exact hs
    · rw [Function.update_of_ne hts] at ht
      exact hok.alive t ht
  · by_cases hts : t = s
    · subst hts
      rw [Function.update_self, List.mem_cons] at hn
      rcases hn with rfl | hn
      · exact Nat.lt_succ_self _
      · exact Nat.lt_succ_of_lt (hok.bound t n hn)
    · rw [Function.update_of_ne hts] at hn
      exact Nat.lt_succ_of_lt (hok.bound t n hn)
  · obtain ⟨hbuilt, hlive, hback⟩ := hok.handler c h hc
    have hne : h ≠ ⟨s, H.fresh⟩ := fun heq => hdead (heq ▸ hlive)
    refine ⟨hbuilt, ?_, ?_⟩
    · simp only [SignalHeap.added, Function.update_of_ne hne, hlive]
    · simp only [SignalHeap.added, Function.update_of_ne hne, hback]
  · by_cases hne : h = ⟨s, H.fresh⟩
    · subst hne
      simp [SignalHeap.added] at hb
    · simp only [SignalHeap.added, Function.update_of_ne hne] at hl hb
      exact hok.backlink h c hl hb

theorem Ok.removed (hok : H.Ok order) {h : SignalHandler σ} {a b : List Nat}
    (hsplit : order h.signal = a ++ h.block :: b) :
    (H.removed h (endSlot .first a)).Ok (Function.update order h.signal (a ++ b)) := by
  have hlisted := hok.listed h.signal
  rw [hsplit] at hlisted
  have hnotMem : h.block ∉ a ++ b := (List.nodup_cons.mp (List.perm_middle.nodup_iff.mp hlisted.nodup)).1
  have hmem : ∀ k : SignalHandler σ, k.block ∈ Function.update order h.signal (a ++ b) k.signal ↔
      k.block ∈ order k.signal ∧ k ≠ h := by
    rintro ⟨t, n⟩
    by_cases ht : t = h.signal
    · subst ht
      have hne : (⟨h.signal, n⟩ : SignalHandler σ) ≠ h ↔ n ≠ h.block :=
        not_congr ⟨fun heq => congrArg SignalHandler.block heq, fun heq => by rw [heq]⟩
      rw [Function.update_self, hne, hsplit, List.perm_middle.mem_iff, List.mem_cons]
      refine ⟨fun hn => ⟨.inr hn, fun heq => hnotMem (heq ▸ hn)⟩, fun hn => ?_⟩
      exact hn.1.resolve_left hn.2
    · have hne : (⟨t, n⟩ : SignalHandler σ) ≠ h := fun heq => ht (congrArg SignalHandler.signal heq)
      simp [Function.update_of_ne ht, hne]
  have hlive : ∀ k, (H.removed h (endSlot .first a)).live k = true ↔ H.live k = true ∧ k ≠ h := by
    intro k
    by_cases hk : k = h
    · simp [SignalHeap.removed, hk]
    · simp [SignalHeap.removed, hk]
  have hhandler : ∀ c k, (H.removed h (endSlot .first a)).handler c = some k ↔ H.handler c = some k ∧ k ≠ h := by
    intro c k
    by_cases hc : H.handler c = some h
    · simp only [SignalHeap.removed, hc]
      exact ⟨fun hk => by simp at hk, fun hk => absurd (Option.some.inj hk.1).symm hk.2⟩
    · simp only [SignalHeap.removed, if_neg hc]
      exact ⟨fun hk => ⟨hk, fun heq => hc (heq ▸ hk)⟩, fun hk => hk.1⟩
  refine ⟨fun t => ?_, fun k => ?_, fun t ht => ?_, fun t n hn => ?_, fun c k hc => ?_, fun k c hl hb => ?_⟩
  · by_cases ht : t = h.signal
    · subst ht
      simp only [SignalHeap.removed, Function.update_self]
      exact hlisted.unlinkFrom
    · simpa only [SignalHeap.removed, Function.update_of_ne ht] using hok.listed t
  · rw [hlive, hmem, hok.live]
  · obtain ⟨n, hn⟩ := List.exists_mem_of_ne_nil _ ht
    exact hok.alive t (List.ne_nil_of_mem ((hmem ⟨t, n⟩).mp hn).1)
  · exact hok.bound t n ((hmem ⟨t, n⟩).mp hn).1
  · obtain ⟨hc, hne⟩ := (hhandler c k).mp hc
    obtain ⟨hbuilt, hl, hback⟩ := hok.handler c k hc
    exact ⟨hbuilt, (hlive k).mpr ⟨hl, hne⟩, hback⟩
  · obtain ⟨hl, hne⟩ := (hlive k).mp hl
    exact (hhandler c k).mpr ⟨hok.backlink k c hl hb, hne⟩

def without (order : σ → List Nat) (h : SignalHandler σ) : σ → List Nat :=
  Function.update order h.signal ((order h.signal).erase h.block)

theorem filter_true (l : List Nat) : l = l.filter fun _ => true := by simp

theorem Ok.filter_without (hok : H.Ok order) (h : SignalHandler σ) (s : σ) :
    ∃ p : Nat → Bool, without order h s = (order s).filter p := by
  by_cases hs : s = h.signal
  · subst hs
    exact ⟨_, by rw [without, Function.update_self, (hok.listed _).nodup.erase_eq_filter]⟩
  · exact ⟨_, by rw [without, Function.update_of_ne hs]; exact filter_true _⟩

/-! ### The operations -/

/-- How a list may change in one operation: handlers are deleted, or a new one is added at the front. -/
def Evolves (H H' : SignalHeap σ κ) (order order' : σ → List Nat) : Prop :=
  H.fresh ≤ H'.fresh ∧ ∀ s, (∃ p : Nat → Bool, order' s = (order s).filter p) ∨
    order' s = H.fresh :: order s ∧ H.fresh < H'.fresh

/-- An operation that has a result, in which the invariant holds again. -/
def Works (H : SignalHeap σ κ) (order : σ → List Nat) (result : Option (SignalHeap σ κ)) : Prop :=
  ∃ H' order', result = some H' ∧ H'.Ok order' ∧ Evolves H H' order order'

theorem Ok.addNewClosure (hok : H.Ok order) {s : σ} (hs : H.alive s = true) :
    Works H order (H.addNewClosure s) := by
  refine ⟨_, _, hok.addNewClosure_eq s, hok.added hs, Nat.le_succ _, fun t => ?_⟩
  by_cases ht : t = s
  · subst ht
    exact .inr ⟨Function.update_self .., Nat.lt_succ_self _⟩
  · refine .inl ⟨fun _ => true, ?_⟩
    rw [Function.update_of_ne ht]
    exact filter_true _

theorem Ok.constructSignal (hok : H.Ok order) {s : σ} (hs : H.alive s = false) :
    Works H order (some (H.constructSignal s)) := by
  have hnil : order s = [] := by
    by_contra hne
    rw [hok.alive s hne] at hs
    cases hs
  refine ⟨_, order, rfl, ?_, Nat.le_refl _, fun t => .inl ⟨_, filter_true _⟩⟩
  refine ⟨fun t => ?_, hok.live, fun t ht => ?_, hok.bound, hok.handler, hok.backlink⟩
  · by_cases ht : t = s
    · subst ht
      simp only [SignalHeap.constructSignal, Function.update_self, hnil]
      exact Links.listed_empty _ _
    · simpa only [SignalHeap.constructSignal, Function.update_of_ne ht] using hok.listed t
  · by_cases hts : t = s
    · simp only [SignalHeap.constructSignal, hts, Function.update_self]
    · simp only [SignalHeap.constructSignal, Function.update_of_ne hts]
      exact hok.alive t ht

variable [DecidableEq κ]

theorem Ok.delete_eq (hok : H.Ok order) {h : SignalHandler σ} {a b : List Nat}
    (hsplit : order h.signal = a ++ h.block :: b) : H.delete h = some (H.removed h (endSlot .first a)) := by
  have hlisted := hok.listed h.signal
  rw [hsplit] at hlisted
  have hlive : H.live h = true := (hok.live h).mpr (by simp [hsplit])
  have hplace : H.holds h.signal (endSlot .first a) = true ∧
      (H.links h.signal).read (endSlot .first a) = some h.block :=
    ⟨hok.holds_endSlot hsplit, hlisted.read_endSlot⟩
  have hnext : ∀ m ∈ (H.links h.signal).next h.block,
      H.live ⟨h.signal, m⟩ = true ∧ (H.links h.signal).pThis m = some (.next h.block) := by
    intro m hm
    rw [hlisted.next_eq] at hm
    obtain ⟨b', rfl⟩ : ∃ b', b = m :: b' := List.head?_eq_some_iff.mp hm
    refine ⟨(hok.live ⟨h.signal, m⟩).mpr (by simp [hsplit]), ?_⟩
    have happend : (H.links h.signal).Listed ((a ++ [h.block]) ++ m :: b') := by simpa using hlisted
    have hthis := happend.pThis_eq
    rwa [endSlot_append] at hthis
  unfold SignalHeap.delete
  simp only [guard, if_pos hlive, hlisted.pThis_eq, if_pos hplace, if_pos hnext, Option.pure_def, Option.bind_eq_bind,
    Option.bind_some, unlinkFrom_eq]
  rcases hb : H.pBacklink h with _ | c
  · have hnone : ∀ c, H.handler c ≠ some h := fun c hc => by
      rw [(hok.handler c h hc).2.2] at hb
      exact Option.some_ne_none c hb
    simp [SignalHeap.removed, hnone]
  · have hc := hok.backlink h c hlive hb
    have honly : (fun d => if H.handler d = some h then none else H.handler d) =
        Function.update H.handler c none := by
      funext d
      by_cases hd : d = c
      · rw [hd, Function.update_self, if_pos hc]
      · rw [Function.update_of_ne hd, if_neg]
        intro heq
        have hback := (hok.handler d h heq).2.2
        rw [hb] at hback
        exact hd (Option.some.inj hback).symm
    simp [SignalHeap.removed, honly, (hok.handler c h hc).1, hc]

/-- What deleting a handler does not change. -/
structure Kept (H H' : SignalHeap σ κ) : Prop where
  pBacklink : H'.pBacklink = H.pBacklink
  alive : H'.alive = H.alive
  built : H'.built = H.built
  fresh : H'.fresh = H.fresh

theorem Ok.delete (hok : H.Ok order) {h : SignalHandler σ} (hlive : H.live h = true) :
    ∃ H', H.delete h = some H' ∧ H'.Ok (without order h) ∧ Kept H H' ∧
      ∀ c, H.handler c = some h → H'.handler c = none := by
  obtain ⟨a, b, hsplit⟩ := List.append_of_mem ((hok.live h).mp hlive)
  have hnodup := (hok.listed h.signal).nodup
  rw [hsplit] at hnodup
  have ha : h.block ∉ a := fun ha => List.disjoint_of_nodup_append hnodup ha List.mem_cons_self
  have herase : (order h.signal).erase h.block = a ++ b := by
    rw [hsplit, List.erase_append_right _ ha, List.erase_cons_head]
  refine ⟨_, hok.delete_eq hsplit, ?_, ⟨rfl, rfl, rfl, rfl⟩, fun c hc => if_pos hc⟩
  rw [without, herase]
  exact hok.removed hsplit

theorem Ok.deletePtr (hok : H.Ok order) (c : κ) :
    ∃ H' order', H.deletePtr (H.handler c) = some H' ∧ H'.Ok order' ∧ Kept H H' ∧ H'.handler c = none ∧
      (∀ s, ∃ p : Nat → Bool, order' s = (order s).filter p) ∧
      ∀ h, H.live h = true → H.handler c ≠ some h → H'.live h = true := by
  rcases hc : H.handler c with _ | h
  · exact ⟨H, order, rfl, hok, ⟨rfl, rfl, rfl, rfl⟩, hc, fun s => ⟨_, filter_true _⟩, fun h hl _ => hl⟩
  · obtain ⟨H', heq, hok', hkept, hclear⟩ := hok.delete (hok.handler c h hc).2.1
    refine ⟨H', _, heq, hok', hkept, hclear c hc, hok.filter_without h, fun k hk hne => ?_⟩
    rw [hok'.live, without]
    rw [hok.live] at hk
    by_cases hs : k.signal = h.signal
    · have hblock : k.block ≠ h.block := by
        intro hb
        apply hne
        cases h
        cases k
        simp only at hs hb
        rw [hs, hb]
      rw [hs, Function.update_self, List.mem_erase_of_ne hblock, ← hs]
      exact hk
    · rwa [Function.update_of_ne hs]

theorem Ok.attach (hok : H.Ok order) {c : κ} {h : Option (SignalHandler σ)} (hbuilt : H.built c = true)
    (hc : H.handler c = none) (hfree : ∀ p ∈ h, H.live p = true ∧ H.pBacklink p = none) :
    ∃ H', H.attach c h = some H' ∧ H'.Ok order ∧ H'.fresh = H.fresh := by
  rcases h with _ | h
  · refine ⟨_, rfl, ?_, rfl⟩
    have hsame : Function.update H.handler c none = H.handler := by
      rw [← hc, Function.update_eq_self]
    rw [hsame]
    exact hok
  · have hguard := hfree h rfl
    refine ⟨{ H with
        handler := Function.update H.handler c (some h)
        pBacklink := Function.update H.pBacklink h (some c) },
      by simp [SignalHeap.attach, guard, if_pos hguard], ?_, rfl⟩
    refine ⟨hok.listed, hok.live, hok.alive, hok.bound, fun d k hd => ?_, fun k d hl hb => ?_⟩
    · by_cases hdc : d = c
      · subst hdc
        simp only [Function.update_self, Option.some.injEq] at hd
        subst hd
        exact ⟨hbuilt, hguard.1, Function.update_self ..⟩
      · simp only [Function.update_of_ne hdc] at hd
        obtain ⟨hbuilt', hl, hb⟩ := hok.handler d k hd
        have hkh : k ≠ h := fun heq => by rw [heq, hguard.2] at hb; exact Option.some_ne_none _ hb.symm
        exact ⟨hbuilt', hl, by simp only [Function.update_of_ne hkh, hb]⟩
    · by_cases hkh : k = h
      · subst hkh
        simp only [Function.update_self, Option.some.injEq] at hb
        subst hb
        exact Function.update_self ..
      · simp only [Function.update_of_ne hkh] at hb
        have hd := hok.backlink k d hl hb
        have hdc : d ≠ c := fun heq => by rw [heq, hc] at hd; exact Option.some_ne_none _ hd.symm
        simp only [Function.update_of_ne hdc, hd]

omit [DecidableEq σ] in
theorem Ok.setBuilt (hok : H.Ok order) {c : κ} (hc : H.handler c = none) (b : Bool) :
    Ok { H with built := Function.update H.built c b } order := by
  refine ⟨hok.listed, hok.live, hok.alive, hok.bound, fun d k hd => ?_, hok.backlink⟩
  have hdc : d ≠ c := fun heq => by simp [heq, hc] at hd
  obtain ⟨hb, hrest⟩ := hok.handler d k hd
  exact ⟨by simp only [Function.update_of_ne hdc, hb], hrest⟩

theorem Ok.construct (hok : H.Ok order) {c : κ} {h : Option (SignalHandler σ)} (hbuilt : H.built c = false)
    (hfree : ∀ p ∈ h, H.live p = true ∧ H.pBacklink p = none) : Works H order (H.construct c h) := by
  have hc : H.handler c = none := by
    rcases hc : H.handler c with _ | k
    · rfl
    · rw [(hok.handler c k hc).1] at hbuilt
      cases hbuilt
  obtain ⟨H', heq, hok', hfresh⟩ := (hok.setBuilt hc true).attach (Function.update_self ..) hc hfree
  exact ⟨H', order, heq, hok', Nat.le_of_eq hfresh.symm, fun s => .inl ⟨_, filter_true _⟩⟩

theorem Ok.disconnect (hok : H.Ok order) (c : κ) : Works H order (H.disconnect c) := by
  obtain ⟨H', order', heq, hok', hkept, -, hfilter, -⟩ := hok.deletePtr c
  exact ⟨H', order', heq, hok', Nat.le_of_eq hkept.fresh.symm, fun s => .inl (hfilter s)⟩

theorem Ok.assign (hok : H.Ok order) {c : κ} {h : Option (SignalHandler σ)} (hbuilt : H.built c = true)
    (hfree : H.handler c ≠ h → ∀ p ∈ h, H.live p = true ∧ H.pBacklink p = none) : Works H order (H.assign c h) := by
  unfold SignalHeap.assign
  by_cases hne : H.handler c ≠ h
  · obtain ⟨H₁, order', heq, hok₁, hkept, hnone, hfilter, hlive⟩ := hok.deletePtr c
    have hfree₁ : ∀ p ∈ h, H₁.live p = true ∧ H₁.pBacklink p = none := by
      intro p hp
      obtain ⟨hl, hb⟩ := hfree hne p hp
      refine ⟨hlive p hl fun hc => hne ?_, by rw [hkept.pBacklink, hb]⟩
      rw [hc, hp]
    obtain ⟨H', heq', hok', hfresh⟩ := hok₁.attach (by rw [hkept.built, hbuilt]) hnone hfree₁
    refine ⟨H', order', ?_, hok', ?_, fun s => .inl (hfilter s)⟩
    · rw [if_pos hne, heq]
      simp [guard, hnone, heq']
    · exact Nat.le_of_eq (hfresh.trans hkept.fresh).symm
  · rw [if_neg hne]
    exact ⟨H, order, rfl, hok, Nat.le_refl _, fun s => .inl ⟨_, filter_true _⟩⟩

theorem Ok.destroyConnection (hok : H.Ok order) (c : κ) : Works H order (H.destroyConnection c) := by
  obtain ⟨H₁, order', heq, hok₁, hkept, hnone, hfilter, -⟩ := hok.deletePtr c
  exact ⟨{ H₁ with built := Function.update H₁.built c false }, order',
    by simp [SignalHeap.destroyConnection, heq], hok₁.setBuilt hnone false, Nat.le_of_eq hkept.fresh.symm,
    fun s => .inl (hfilter s)⟩

theorem Ok.deleteAll_nil (hok : H.Ok order) {s : σ} (hnil : order s = []) (fuel : Nat) :
    ∃ H', SignalHeap.deleteAll s fuel H = some H' ∧ H'.Ok (Function.update order s []) ∧ Kept H H' := by
  have hfirst : (H.links s).first = none := by rw [hok.first_eq, hnil]; rfl
  refine ⟨H, ?_, ?_, ⟨rfl, rfl, rfl, rfl⟩⟩
  · cases fuel <;> rw [SignalHeap.deleteAll, hfirst]
  · rwa [← hnil, Function.update_eq_self]

theorem Ok.deleteAll (hok : H.Ok order) (s : σ) {fuel : Nat} (hfuel : (order s).length ≤ fuel) :
    ∃ H', SignalHeap.deleteAll s fuel H = some H' ∧ H'.Ok (Function.update order s []) ∧ Kept H H' := by
  induction fuel generalizing H order with
  | zero =>
    have hnil : order s = [] := List.length_eq_zero_iff.mp (Nat.le_zero.mp hfuel)
    exact hok.deleteAll_nil hnil 0
  | succ fuel ih =>
    rcases horder : order s with _ | ⟨n, l⟩
    · exact hok.deleteAll_nil horder (fuel + 1)
    · have hfirst : (H.links s).first = some n := by rw [hok.first_eq, horder]; rfl
      have hlive : H.live ⟨s, n⟩ = true := (hok.live _).mpr (by simp [horder])
      obtain ⟨H₁, heq, hok₁, hkept, -⟩ := hok.delete hlive
      have hwithout : without order ⟨s, n⟩ = Function.update order s l := by
        rw [without, horder, List.erase_cons_head]
      rw [hwithout] at hok₁
      have hlength : (Function.update order s l s).length ≤ fuel := by
        rw [Function.update_self]
        rw [horder, List.length_cons] at hfuel
        omega
      obtain ⟨H', heq', hok', hkept'⟩ := ih hok₁ hlength
      refine ⟨H', ?_, ?_, ?_⟩
      · rw [SignalHeap.deleteAll, hfirst]
        simp only [heq, Option.bind_some, heq']
      · rwa [Function.update_idem] at hok'
      · exact ⟨hkept'.pBacklink.trans hkept.pBacklink, hkept'.alive.trans hkept.alive,
          hkept'.built.trans hkept.built, hkept'.fresh.trans hkept.fresh⟩

theorem Ok.destroySignal (hok : H.Ok order) (s : σ) : Works H order (H.destroySignal s) := by
  obtain ⟨H₁, heq, hok₁, hkept⟩ := hok.deleteAll s (hok.length_le s)
  refine ⟨{ H₁ with alive := Function.update H₁.alive s false }, Function.update order s [],
    by simp [SignalHeap.destroySignal, heq], ?_, Nat.le_of_eq hkept.fresh.symm, fun t => .inl ?_⟩
  · refine ⟨hok₁.listed, hok₁.live, fun t ht => ?_, hok₁.bound, hok₁.handler, hok₁.backlink⟩
    by_cases hts : t = s
    · rw [hts, Function.update_self] at ht
      exact absurd rfl ht
    · simp only [Function.update_of_ne hts]
      exact hok₁.alive t ht
  · by_cases hts : t = s
    · refine ⟨fun _ => false, ?_⟩
      rw [hts, Function.update_self, List.filter_false]
    · refine ⟨fun _ => true, ?_⟩
      rw [Function.update_of_ne hts]
      exact filter_true _

end SignalHeap

end Afl.Base
