import Afl.Lib.Run
import Mathlib.Data.Fintype.EquivFin
import Mathlib.Data.UInt

/-!
# Reference-counted pointers

`afl/base/ptr.hpp` with the counter of `afl/base/refcounted.hpp`. An object can have members that are pointers, and its
destructor is user code: between its begin and its return, any operation on any pointer may be carried out, also on the
pointer that is being changed or destroyed. The library's functions that wait for a destructor form a stack.
-/

namespace Afl.Base

/-- What waits for the frames above it. -/
inductive PtrFrame
  /-- The loop of `~Ptr`. -/
  | loop (v : Nat)
  /-- The end of `Ptr::assign`, after `decRef`. -/
  | store (v : Nat) (ptr : Option Nat)
  /-- The members of an object that are still to be destroyed. -/
  | members (vs : List Nat)
  /-- The body of an object's destructor, which is user code. -/
  | body (o : Nat)
deriving DecidableEq

/-- The pointers that exist, and the objects `0, ..., fresh - 1`. A pointer's `m_ref` is the counter of the object
`m_ptr` points at, an `AtomicInteger` of 32 bits. `deleted` lists the objects in the order in which they were deleted,
and `lost` counts the pointers at an object that `assign` has overwritten. -/
structure PtrState where
  vars : List Nat
  ptr : Nat → Option Nat
  refCounter : Nat → UInt32
  members : Nat → List Nat
  fresh : Nat
  deleted : List Nat
  lost : Nat → Nat
  stack : List PtrFrame
  faulted : Bool

inductive PtrAction
  /-- `new T`, with the pointers that are its members. -/
  | newObject (vs : List Nat)
  /-- `Ptr(T* p)`. -/
  | construct (v : Nat) (p : Option Nat)
  /-- `Ptr(const Ptr& other)`. -/
  | copy (v other : Nat)
  /-- `operator=(T* p)`. -/
  | assign (v : Nat) (p : Option Nat)
  /-- `operator=(const Ptr& other)`. -/
  | assignFrom (v other : Nat)
  | reset (v : Nat)
  /-- `~Ptr`. -/
  | destroy (v : Nat)
  /-- The body of a destructor ends. -/
  | ret
  /-- The library goes on. -/
  | resume
deriving DecidableEq

namespace PtrState

def empty : PtrState := ⟨[], fun _ => none, fun _ => 0, fun _ => [], 0, [], fun _ => 0, [], false⟩

/-- The object was made and its destruction has not begun. -/
def Live (s : PtrState) (o : Nat) : Prop := o < s.fresh ∧ o ∉ s.deleted

instance (s : PtrState) (o : Nat) : Decidable (s.Live o) := inferInstanceAs (Decidable (_ ∧ _))

/-- One more at an object, if there is one. -/
def increment {α : Type} [Add α] [One α] (f : Nat → α) : Option Nat → Nat → α
  | none => f
  | some o => Function.update f o (f o + 1)

/-- `++*ref`, if there is an object. -/
def incRef (s : PtrState) (p : Option Nat) : PtrState := { s with refCounter := increment s.refCounter p }

/-- `decRef`: the pointer becomes null, and the destructor of the object begins if this was the last one. -/
def decRef (s : PtrState) (v : Nat) : PtrState :=
  match s.ptr v with
  | none => s
  | some o =>
    let s₁ := { s with
      ptr := Function.update s.ptr v none
      refCounter := Function.update s.refCounter o (s.refCounter o - 1) }
    if s.refCounter o - 1 = 0 then { s₁ with deleted := s.deleted ++ [o], stack := .body o :: s.stack } else s₁

def construct (s : PtrState) (v : Nat) (p : Option Nat) : PtrState :=
  { s.incRef p with vars := v :: s.vars, ptr := Function.update s.ptr v p }

/-- `Ptr::assign` up to and with `decRef`. -/
def assign (s : PtrState) (v : Nat) (p : Option Nat) : PtrState :=
  decRef { s.incRef p with stack := .store v p :: s.stack } v

/-- The rest of `Ptr::assign`. -/
def store (s : PtrState) (v : Nat) (p : Option Nat) (rest : List PtrFrame) : PtrState :=
  if v ∈ s.vars then
    { s with
      ptr := Function.update s.ptr v p
      lost := increment s.lost (s.ptr v)
      stack := rest }
  else { s with faulted := true }

/-- The library goes on after a destructor, or after one of its own functions. -/
def resume (s : PtrState) : PtrState :=
  match s.stack with
  | .loop v :: rest =>
    if s.ptr v = none then { s with vars := s.vars.erase v, stack := rest } else s.decRef v
  | .store v p :: rest => s.store v p rest
  | .members [] :: rest => { s with stack := rest }
  | .members (v :: vs) :: rest => { s with stack := .loop v :: .members vs :: rest }
  | _ => s

/-- After the body of the destructor, the members are destroyed from the last one to the first. -/
def ret (s : PtrState) : PtrState :=
  match s.stack with
  | .body o :: rest => { s with stack := .members (s.members o).reverse :: rest }
  | _ => s

def exec (s : PtrState) : PtrAction → PtrState
  | .newObject vs =>
    { s with vars := vs ++ s.vars, members := Function.update s.members s.fresh vs, fresh := s.fresh + 1 }
  | .construct v p => s.construct v p
  | .copy v other => s.construct v (s.ptr other)
  | .assign v p => s.assign v p
  | .assignFrom v other => s.assign v (s.ptr other)
  | .reset v => s.decRef v
  | .destroy v => { s with stack := .loop v :: s.stack }
  | .ret => s.ret
  | .resume => s.resume

/-- User code runs: nothing waits, or the body of a destructor does. -/
def userRuns (s : PtrState) : Bool :=
  match s.stack with
  | [] => true
  | .body _ :: _ => true
  | _ => false

/-- The pointers that are being destroyed, or will be when the frames go on. -/
def pending (members : Nat → List Nat) : List PtrFrame → List Nat
  | [] => []
  | .loop v :: rest => v :: pending members rest
  | .store _ _ :: rest => pending members rest
  | .members vs :: rest => vs ++ pending members rest
  | .body o :: rest => members o ++ pending members rest

/-- The pointer is not a member of an object. -/
def Free (s : PtrState) (v : Nat) : Prop := ∀ o < s.fresh, v ∉ s.members o

instance (s : PtrState) (v : Nat) : Decidable (s.Free v) := inferInstanceAs (Decidable (∀ o < s.fresh, _))

/-- The documented use: a dumb pointer is null or points at an object that is not being deleted, a pointer is made
before it is used, and what is not a member is destroyed once. -/
def Allowed (s : PtrState) : PtrAction → Prop
  | .newObject vs => s.userRuns = true ∧ vs.Nodup ∧ ∀ v ∈ vs, v ∉ s.vars ∧ s.Free v
  | .construct v p => s.userRuns = true ∧ (v ∉ s.vars ∧ s.Free v) ∧ ∀ o ∈ p, s.Live o
  | .copy v other => s.userRuns = true ∧ (v ∉ s.vars ∧ s.Free v) ∧ other ∈ s.vars
  | .assign v p => s.userRuns = true ∧ v ∈ s.vars ∧ ∀ o ∈ p, s.Live o
  | .assignFrom v other => s.userRuns = true ∧ v ∈ s.vars ∧ other ∈ s.vars
  | .reset v => s.userRuns = true ∧ v ∈ s.vars
  | .destroy v => s.userRuns = true ∧ v ∈ s.vars ∧ s.Free v ∧ v ∉ pending s.members s.stack
  | .ret => s.userRuns = true ∧ s.stack ≠ []
  | .resume => s.userRuns = false

instance (s : PtrState) : (a : PtrAction) → Decidable (s.Allowed a)
  | .newObject _ => inferInstanceAs (Decidable (_ ∧ _))
  | .construct _ _ => inferInstanceAs (Decidable (_ ∧ _))
  | .copy _ _ => inferInstanceAs (Decidable (_ ∧ _))
  | .assign _ _ => inferInstanceAs (Decidable (_ ∧ _))
  | .assignFrom _ _ => inferInstanceAs (Decidable (_ ∧ _))
  | .reset _ => inferInstanceAs (Decidable (_ ∧ _))
  | .destroy _ => inferInstanceAs (Decidable (_ ∧ _))
  | .ret => inferInstanceAs (Decidable (_ ∧ _))
  | .resume => inferInstanceAs (Decidable (_ = _))

/-- After a fault nothing is said. -/
def step (s : PtrState) (a : PtrAction) : Option PtrState :=
  if s.faulted = false ∧ s.Allowed a then some (s.exec a) else none

def incremented (s : PtrState) : PtrAction → Option Nat
  | .construct _ p => p
  | .copy _ other => s.ptr other
  | .assign _ p => p
  | .assignFrom _ other => s.ptr other
  | _ => none

/-- No increment makes this counter wrap around. -/
def Fits (s : PtrState) (p : Option Nat) : Prop := ∀ o ∈ p, s.refCounter o ≠ 0xFFFFFFFF

instance (s : PtrState) (p : Option Nat) : Decidable (s.Fits p) := inferInstanceAs (Decidable (∀ o ∈ p, _))

/-! ## The invariant -/

def pointers (s : PtrState) (o : Nat) : Nat := s.vars.countP fun v => s.ptr v = some o

/-- The number of assignments that are going to point at an object. -/
def stores (o : Nat) : List PtrFrame → Nat
  | [] => 0
  | .store _ p :: rest => (if p = some o then 1 else 0) + stores o rest
  | .loop _ :: rest => stores o rest
  | .members _ :: rest => stores o rest
  | .body _ :: rest => stores o rest

/-- Every counter has the number of pointers at its object, with those that are going to point at it and those that were
overwritten, and what does not exist has none. -/
structure Counted (s : PtrState) : Prop where
  vars_nodup : s.vars.Nodup
  ptr_vars : ∀ v o, s.ptr v = some o → v ∈ s.vars
  count : ∀ o, (s.refCounter o).toNat = s.pointers o + stores o s.stack + s.lost o
  zero : ∀ o, ¬s.Live o → s.refCounter o = 0

/-- No object is deleted twice, no pointer is a member twice, and the members of an object are destroyed with it. -/
structure Owned (vars : List Nat) (members : Nat → List Nat) (fresh : Nat) (deleted : List Nat)
    (stack : List PtrFrame) : Prop where
  deleted_nodup : deleted.Nodup
  deleted_fresh : ∀ o ∈ deleted, o < fresh
  beyond : ∀ o, fresh ≤ o → members o = []
  members_nodup : ∀ o, (members o).Nodup
  members_disjoint : ∀ o o' v, v ∈ members o → v ∈ members o' → o = o'
  pending_nodup : (pending members stack).Nodup
  pending_vars : ∀ v ∈ pending members stack, v ∈ vars
  live_members : ∀ o, o ∉ deleted → ∀ v ∈ members o, v ∈ vars ∧ v ∉ pending members stack
  dead_members : ∀ o ∈ deleted, ∀ v ∈ members o, v ∈ vars → v ∈ pending members stack
  bodies : ∀ o, .body o ∈ stack → o ∈ deleted

structure Ok (s : PtrState) : Prop extends Counted s where
  owned : Owned s.vars s.members s.fresh s.deleted s.stack

theorem Ok.empty : Ok PtrState.empty :=
  { toCounted := by constructor <;> simp [PtrState.empty, pointers, stores]
    owned := by constructor <;> simp [PtrState.empty, pending] }

theorem toNat_add_one {n : UInt32} (h : n ≠ 0xFFFFFFFF) : (n + 1).toNat = n.toNat + 1 := by
  have hne : n.toNat ≠ 4294967295 := fun heq => h (UInt32.toNat_inj.mp heq)
  have hlt := n.toNat_lt
  rw [UInt32.toNat_add, UInt32.toNat_one, Nat.mod_eq_of_lt (by omega)]

theorem toNat_sub_one {n : UInt32} (h : 0 < n) : (n - 1).toNat = n.toNat - 1 := by
  rw [UInt32.lt_iff_toNat_lt] at h
  exact UInt32.toNat_sub_of_le _ _ (UInt32.le_iff_toNat_le.mpr h)

variable {p : Option Nat}

theorem increment_of_eq {α : Type} [Add α] [One α] (f : Nat → α) {o : Nat} (h : p = some o) :
    increment f p o = f o + 1 := by
  rw [h, increment, Function.update_self]

theorem increment_of_ne {α : Type} [Add α] [One α] (f : Nat → α) {o : Nat} (h : p ≠ some o) :
    increment f p o = f o := by
  rcases p with _ | k
  · rfl
  · have hne : o ≠ k := fun heq => h (congrArg some heq.symm)
    rw [increment, Function.update_of_ne hne]

theorem increment_apply (f : Nat → Nat) (p : Option Nat) (o : Nat) :
    increment f p o = f o + if p = some o then 1 else 0 := by
  by_cases h : p = some o
  · rw [increment_of_eq f h, if_pos h]
  · rw [increment_of_ne f h, if_neg h, Nat.add_zero]

theorem toNat_increment {s : PtrState} (hfits : s.Fits p) (o : Nat) :
    (increment s.refCounter p o).toNat = (s.refCounter o).toNat + if p = some o then 1 else 0 := by
  by_cases h : p = some o
  · have hne : s.refCounter o ≠ 0xFFFFFFFF := hfits o h
    rw [increment_of_eq _ h, if_pos h]
    exact toNat_add_one hne
  · rw [increment_of_ne _ h, if_neg h, Nat.add_zero]

variable {v : Nat}

theorem countP_update {l : List Nat} (hl : l.Nodup) (hv : v ∈ l) (f : Nat → Option Nat) (x : Option Nat) (o : Nat) :
    l.countP (fun w => Function.update f v x w = some o) + (if f v = some o then 1 else 0) =
      l.countP (fun w => f w = some o) + (if x = some o then 1 else 0) := by
  induction l with
  | nil => exact absurd hv List.not_mem_nil
  | cons w l ih =>
    obtain ⟨hw, hl⟩ := List.nodup_cons.mp hl
    rw [List.countP_cons, List.countP_cons]
    rcases List.mem_cons.mp hv with rfl | hv
    · have hrest : l.countP (fun w => Function.update f v x w = some o) = l.countP fun w => f w = some o := by
        apply List.countP_congr
        intro w hwl
        have hne : w ≠ v := fun heq => hw (heq ▸ hwl)
        simp only [Function.update_of_ne hne]
      rw [hrest]
      simp only [Function.update_self, decide_eq_true_eq]
      omega
    · have hne : w ≠ v := fun heq => hw (heq ▸ hv)
      have hrest := ih hl hv
      simp only [Function.update_of_ne hne]
      omega

theorem mem_of_update {l : List Nat} {f : Nat → Option Nat} (hf : ∀ v o, f v = some o → v ∈ l) (hv : v ∈ l)
    (x : Option Nat) : ∀ w o, Function.update f v x w = some o → w ∈ l := by
  intro w o hw
  by_cases hwv : w = v
  · rwa [hwv]
  · rw [Function.update_of_ne hwv] at hw
    exact hf w o hw

variable {s : PtrState} {o : Nat}

theorem Counted.pos_iff (hs : s.Counted) (o : Nat) :
    0 < s.refCounter o ↔ 0 < s.pointers o + stores o s.stack + s.lost o := by
  rw [UInt32.lt_iff_toNat_lt, hs.count o, UInt32.toNat_zero]

theorem Counted.pos_of_ptr (hs : s.Counted) {v o : Nat} (h : s.ptr v = some o) : 0 < s.refCounter o := by
  have hpos : 0 < s.pointers o := List.countP_pos_iff.mpr ⟨v, hs.ptr_vars v o h, by simp [h]⟩
  rw [hs.pos_iff]
  omega

theorem Counted.live_of_pos (hs : s.Counted) {o : Nat} (h : 0 < s.refCounter o) : s.Live o := by
  by_contra hdead
  exact UInt32.pos_iff_ne_zero.mp h (hs.zero o hdead)

theorem Counted.live_of_ptr (hs : s.Counted) {v o : Nat} (h : s.ptr v = some o) : s.Live o :=
  hs.live_of_pos (hs.pos_of_ptr h)

/-! ### Members -/

section Owned

variable {vars deleted : List Nat} {members : Nat → List Nat} {fresh : Nat} {stack : List PtrFrame}

theorem Owned.of_stack (h : Owned vars members fresh deleted stack) {stack' : List PtrFrame}
    (hpending : (pending members stack').Perm (pending members stack))
    (hbodies : ∀ o, .body o ∈ stack' → .body o ∈ stack) : Owned vars members fresh deleted stack' where
  __ := h
  pending_nodup := hpending.nodup_iff.mpr h.pending_nodup
  pending_vars w hw := h.pending_vars w (hpending.mem_iff.mp hw)
  live_members k hk w hw := by
    obtain ⟨hvars, hnot⟩ := h.live_members k hk w hw
    exact ⟨hvars, fun hmem => hnot (hpending.mem_iff.mp hmem)⟩
  dead_members k hk w hw hwv := hpending.mem_iff.mpr (h.dead_members k hk w hw hwv)
  bodies k hk := h.bodies k (hbodies k hk)

theorem Owned.delete (h : Owned vars members fresh deleted stack) {o : Nat} (hfresh : o < fresh) (hdel : o ∉ deleted) :
    Owned vars members fresh (deleted ++ [o]) (.body o :: stack) where
  __ := h
  deleted_nodup := by
    rw [← List.concat_eq_append]
    exact h.deleted_nodup.concat hdel
  deleted_fresh k hk := by
    rcases List.mem_append.mp hk with hk | hk
    · exact h.deleted_fresh k hk
    · rwa [List.mem_singleton.mp hk]
  pending_nodup := by
    rw [pending, List.nodup_append]
    refine ⟨h.members_nodup o, h.pending_nodup, fun a ha b hb hab => ?_⟩
    exact (h.live_members o hdel a ha).2 (hab ▸ hb)
  pending_vars w hw := by
    rcases List.mem_append.mp hw with hw | hw
    · exact (h.live_members o hdel w hw).1
    · exact h.pending_vars w hw
  live_members k hk w hw := by
    obtain ⟨hk, hko⟩ : k ∉ deleted ∧ k ≠ o := by simpa [not_or] using hk
    obtain ⟨hvars, hnot⟩ := h.live_members k hk w hw
    refine ⟨hvars, fun hmem => ?_⟩
    rcases List.mem_append.mp hmem with hmem | hmem
    · exact hko (h.members_disjoint k o w hw hmem)
    · exact hnot hmem
  dead_members k hk w hw hwv := by
    rcases List.mem_append.mp hk with hk | hk
    · exact List.mem_append_right _ (h.dead_members k hk w hw hwv)
    · rw [List.mem_singleton.mp hk] at hw
      exact List.mem_append_left _ hw
  bodies k hk := by
    rcases List.mem_cons.mp hk with hk | hk
    · cases hk
      exact List.mem_append_right _ (List.mem_singleton_self _)
    · exact List.mem_append_left _ (h.bodies k hk)

theorem Owned.notMem_members (h : Owned vars members fresh deleted stack)
    (hfree : ∀ o < fresh, v ∉ members o) (o : Nat) : v ∉ members o := by
  by_cases ho : o < fresh
  · exact hfree o ho
  · rw [h.beyond o (Nat.le_of_not_lt ho)]
    exact List.not_mem_nil

theorem Owned.construct (h : Owned vars members fresh deleted stack) (hfree : ∀ o < fresh, v ∉ members o) :
    Owned (v :: vars) members fresh deleted stack where
  __ := h
  pending_vars w hw := List.mem_cons_of_mem _ (h.pending_vars w hw)
  live_members k hk w hw := by
    obtain ⟨hvars, hnot⟩ := h.live_members k hk w hw
    exact ⟨List.mem_cons_of_mem _ hvars, hnot⟩
  dead_members k hk w hw hwv := by
    have hne : w ≠ v := fun heq => h.notMem_members hfree k (heq ▸ hw)
    exact h.dead_members k hk w hw ((List.mem_cons.mp hwv).resolve_left hne)

theorem pending_congr {members' : Nat → List Nat} (h : ∀ o, .body o ∈ stack → members' o = members o) :
    pending members' stack = pending members stack := by
  induction stack with
  | nil => rfl
  | cons f stack ih =>
    have hrest := ih fun o ho => h o (List.mem_cons_of_mem _ ho)
    cases f with
    | loop v => rw [pending, pending, hrest]
    | store v p => rw [pending, pending, hrest]
    | members vs => rw [pending, pending, hrest]
    | body o => rw [pending, pending, hrest, h o List.mem_cons_self]

theorem Owned.newObject (h : Owned vars members fresh deleted stack) {vs : List Nat} (hnodup : vs.Nodup)
    (hvs : ∀ v ∈ vs, v ∉ vars ∧ ∀ o < fresh, v ∉ members o) :
    Owned (vs ++ vars) (Function.update members fresh vs) (fresh + 1) deleted stack := by
  have hnew : fresh ∉ deleted := fun hmem => Nat.lt_irrefl _ (h.deleted_fresh _ hmem)
  have hstack : pending (Function.update members fresh vs) stack = pending members stack := by
    apply pending_congr
    intro o ho
    have hne : o ≠ fresh := fun heq => hnew (heq ▸ h.bodies o ho)
    exact Function.update_of_ne hne ..
  have hmembers : ∀ o v, v ∈ Function.update members fresh vs o → (o = fresh ∧ v ∈ vs) ∨ v ∈ members o := by
    intro o v hv
    by_cases ho : o = fresh
    · subst ho
      rw [Function.update_self] at hv
      exact .inl ⟨rfl, hv⟩
    · rw [Function.update_of_ne ho] at hv
      exact .inr hv
  refine ⟨h.deleted_nodup, fun k hk => Nat.lt_succ_of_lt (h.deleted_fresh k hk), fun k hk => ?_, fun k => ?_,
    fun o o' v hv hv' => ?_, ?_, fun w hw => ?_, fun k hk w hw => ?_, fun k hk w hw hwv => ?_, h.bodies⟩
  · have hne : k ≠ fresh := fun heq => Nat.lt_irrefl _ (heq ▸ hk)
    rw [Function.update_of_ne hne, h.beyond k (Nat.le_of_succ_le hk)]
  · by_cases hk : k = fresh
    · rwa [hk, Function.update_self]
    · rw [Function.update_of_ne hk]
      exact h.members_nodup k
  · rcases hmembers o v hv with ⟨rfl, hmem⟩ | hmem <;> rcases hmembers o' v hv' with ⟨rfl, hmem'⟩ | hmem'
    · rfl
    · exact absurd hmem' (h.notMem_members (hvs v hmem).2 o')
    · exact absurd hmem (h.notMem_members (hvs v hmem').2 o)
    · exact h.members_disjoint o o' v hmem hmem'
  · rw [hstack]
    exact h.pending_nodup
  · rw [hstack] at hw
    exact List.mem_append_right _ (h.pending_vars w hw)
  · rw [hstack]
    rcases hmembers k w hw with ⟨-, hw⟩ | hw
    · exact ⟨List.mem_append_left _ hw, fun hp => (hvs w hw).1 (h.pending_vars w hp)⟩
    · obtain ⟨hvars, hpend⟩ := h.live_members k hk w hw
      exact ⟨List.mem_append_right _ hvars, hpend⟩
  · rw [hstack]
    rcases hmembers k w hw with ⟨rfl, -⟩ | hw
    · exact absurd hk hnew
    · have hwvs : w ∉ vs := fun hwvs => h.notMem_members (hvs w hwvs).2 k hw
      exact h.dead_members k hk w hw ((List.mem_append.mp hwv).resolve_left hwvs)

theorem Owned.destroy (h : Owned vars members fresh deleted stack) (hv : v ∈ vars)
    (hfree : ∀ o < fresh, v ∉ members o) (hpend : v ∉ pending members stack) :
    Owned vars members fresh deleted (.loop v :: stack) where
  __ := h
  pending_nodup := List.nodup_cons.mpr ⟨hpend, h.pending_nodup⟩
  pending_vars := List.forall_mem_cons.mpr ⟨hv, h.pending_vars⟩
  live_members k hk w hw := by
    obtain ⟨hvars, hnot⟩ := h.live_members k hk w hw
    have hne : w ≠ v := fun heq => h.notMem_members hfree k (heq ▸ hw)
    exact ⟨hvars, fun hmem => hnot ((List.mem_cons.mp hmem).resolve_left hne)⟩
  dead_members k hk w hw hwv := List.mem_cons_of_mem _ (h.dead_members k hk w hw hwv)
  bodies k hk := h.bodies k (by simpa using hk)

theorem Owned.erase (h : Owned vars members fresh deleted (.loop v :: stack)) (hvars : vars.Nodup) :
    Owned (vars.erase v) members fresh deleted stack := by
  obtain ⟨hv, hnodup⟩ := List.nodup_cons.mp h.pending_nodup
  refine { h with
    pending_nodup := hnodup
    pending_vars := fun w hw => ?_
    live_members := fun k hk w hw => ?_
    dead_members := fun k hk w hw hwv => ?_
    bodies := fun k hk => h.bodies k (List.mem_cons_of_mem _ hk) }
  · have hne : w ≠ v := fun heq => hv (heq ▸ hw)
    exact (List.mem_erase_of_ne hne).mpr (h.pending_vars w (List.mem_cons_of_mem _ hw))
  · obtain ⟨hwv, hnot⟩ := h.live_members k hk w hw
    have hne : w ≠ v := fun heq => hnot (heq ▸ List.mem_cons_self)
    exact ⟨(List.mem_erase_of_ne hne).mpr hwv, fun hmem => hnot (List.mem_cons_of_mem _ hmem)⟩
  · have hmem := h.dead_members k hk w hw (List.mem_of_mem_erase hwv)
    have hne : w ≠ v := fun heq => hvars.not_mem_erase (heq ▸ hwv)
    exact (List.mem_cons.mp hmem).resolve_left hne

end Owned

/-! ### The operations -/

theorem Ok.of_stack (hok : s.Ok) {stack : List PtrFrame} (hstores : ∀ o, stores o stack = stores o s.stack)
    (hpending : (pending s.members stack).Perm (pending s.members s.stack))
    (hbodies : ∀ o, .body o ∈ stack → .body o ∈ s.stack) : Ok { s with stack := stack } := by
  refine ⟨⟨hok.vars_nodup, hok.ptr_vars, fun k => ?_, hok.zero⟩, hok.owned.of_stack hpending hbodies⟩
  change (s.refCounter k).toNat = s.pointers k + stores k stack + s.lost k
  rw [hstores]
  exact hok.count k

theorem Counted.zero_increment (hs : s.Counted) (hp : ∀ o ∈ p, s.Live o) {o : Nat} (ho : ¬s.Live o) :
    increment s.refCounter p o = 0 := by
  have hne : p ≠ some o := fun heq => ho (hp o heq)
  rw [increment_of_ne _ hne, hs.zero o ho]

theorem Ok.acquire (hok : s.Ok) (v : Nat) (hp : ∀ o ∈ p, s.Live o) (hfits : s.Fits p) :
    Ok { s.incRef p with stack := .store v p :: s.stack } := by
  refine ⟨⟨hok.vars_nodup, hok.ptr_vars, fun k => ?_, fun k hk => hok.zero_increment hp hk⟩,
    hok.owned.of_stack (.refl _) fun k hk => by simpa using hk⟩
  have hcount := hok.count k
  change (increment s.refCounter p k).toNat =
    s.pointers k + ((if p = some k then 1 else 0) + stores k s.stack) + s.lost k
  rw [toNat_increment hfits]
  omega

theorem decRef_none (h : s.ptr v = none) : s.decRef v = s := by
  rw [PtrState.decRef, h]

theorem Ok.decRef (hok : s.Ok) (v : Nat) : (s.decRef v).Ok := by
  rcases hv : s.ptr v with _ | o
  · rwa [decRef_none hv]
  have hpos := hok.pos_of_ptr hv
  have hlive := hok.live_of_pos hpos
  have hptr := mem_of_update hok.ptr_vars (hok.ptr_vars v o hv) none
  have hcount : ∀ k, (Function.update s.refCounter o (s.refCounter o - 1) k).toNat =
      s.vars.countP (fun w => Function.update s.ptr v none w = some k) + stores k s.stack + s.lost k := by
    intro k
    have hk := hok.count k
    have hless := countP_update hok.vars_nodup (hok.ptr_vars v o hv) s.ptr none k
    unfold pointers at hk
    rw [hv, if_neg (Option.some_ne_none k).symm, Nat.add_zero] at hless
    by_cases hko : k = o
    · subst hko
      rw [if_pos rfl] at hless
      rw [Function.update_self, toNat_sub_one hpos]
      omega
    · rw [if_neg fun heq => hko (Option.some.inj heq).symm] at hless
      rw [Function.update_of_ne hko]
      omega
  have hother : ∀ k, k ≠ o → ¬s.Live k → Function.update s.refCounter o (s.refCounter o - 1) k = 0 := by
    intro k hko hk
    rw [Function.update_of_ne hko, hok.zero k hk]
  by_cases hzero : s.refCounter o - 1 = 0
  · simp only [PtrState.decRef, hv, if_pos hzero]
    refine ⟨⟨hok.vars_nodup, hptr, hcount, fun k hk => ?_⟩, hok.owned.delete hlive.1 hlive.2⟩
    by_cases hko : k = o
    · subst hko
      simp only [Function.update_self, hzero]
    · refine hother k hko fun hlive => hk ⟨hlive.1, fun hdel => ?_⟩
      exact (List.mem_append.mp hdel).elim hlive.2 fun hdel => hko (List.mem_singleton.mp hdel)
  · simp only [PtrState.decRef, hv, if_neg hzero]
    exact ⟨⟨hok.vars_nodup, hptr, hcount, fun k hk => hother k (fun heq => hk (heq ▸ hlive)) hk⟩, hok.owned⟩

theorem Ok.assign (hok : s.Ok) (v : Nat) (hp : ∀ o ∈ p, s.Live o) (hfits : s.Fits p) :
    (s.assign v p).Ok :=
  (hok.acquire v hp hfits).decRef v

theorem Ok.construct (hok : s.Ok) (hv : v ∉ s.vars ∧ s.Free v) (hp : ∀ o ∈ p, s.Live o)
    (hfits : s.Fits p) : (s.construct v p).Ok := by
  have hptr := mem_of_update (fun w k hw => List.mem_cons_of_mem v (hok.ptr_vars w k hw)) List.mem_cons_self p
  refine ⟨⟨List.nodup_cons.mpr ⟨hv.1, hok.vars_nodup⟩, hptr, fun k => ?_, fun k hk => hok.zero_increment hp hk⟩,
    hok.owned.construct hv.2⟩
  · have hrest : s.vars.countP (fun w => Function.update s.ptr v p w = some k) = s.pointers k := by
      apply List.countP_congr
      intro w hw
      have hne : w ≠ v := fun heq => hv.1 (heq ▸ hw)
      simp only [Function.update_of_ne hne]
    have hcount := hok.count k
    change (increment s.refCounter p k).toNat =
      (v :: s.vars).countP (fun w => Function.update s.ptr v p w = some k) + stores k s.stack + s.lost k
    rw [toNat_increment hfits, List.countP_cons, hrest, Function.update_self]
    simp only [decide_eq_true_eq]
    omega

theorem Ok.newObject (hok : s.Ok) {vs : List Nat} (hnodup : vs.Nodup) (hvs : ∀ v ∈ vs, v ∉ s.vars ∧ s.Free v) :
    (s.exec (.newObject vs)).Ok := by
  refine ⟨⟨?_, fun w k hw => List.mem_append_right _ (hok.ptr_vars w k hw), fun k => ?_, fun k hk => ?_⟩,
    hok.owned.newObject hnodup hvs⟩
  · apply List.nodup_append.mpr
    exact ⟨hnodup, hok.vars_nodup, fun a ha b hb hab => (hvs a ha).1 (hab ▸ hb)⟩
  · have hzero : vs.countP (fun v => s.ptr v = some k) = 0 := by
      rw [List.countP_eq_zero]
      intro v hv heq
      exact (hvs v hv).1 (hok.ptr_vars v k (of_decide_eq_true heq))
    have hcount := hok.count k
    change (s.refCounter k).toNat = (vs ++ s.vars).countP (fun v => s.ptr v = some k) + stores k s.stack + s.lost k
    rw [List.countP_append, hzero, Nat.zero_add]
    exact hcount
  · exact hok.zero k fun hlive => hk ⟨Nat.lt_succ_of_lt hlive.1, hlive.2⟩

theorem Ok.destroy (hok : s.Ok) (hv : v ∈ s.vars) (hfree : s.Free v)
    (hpend : v ∉ pending s.members s.stack) : (s.exec (.destroy v)).Ok :=
  ⟨⟨hok.vars_nodup, hok.ptr_vars, hok.count, hok.zero⟩, hok.owned.destroy hv hfree hpend⟩

theorem Ok.ret (hok : s.Ok) : s.ret.Ok := by
  rw [PtrState.ret]
  split
  · next o rest heq =>
    have hbodies : ∀ k, .body k ∈ PtrFrame.members (s.members o).reverse :: rest → .body k ∈ s.stack := by
      intro k hk
      rw [heq]
      exact List.mem_cons_of_mem _ (by simpa using hk)
    refine hok.of_stack (fun k => by rw [heq]; rfl) ?_ hbodies
    rw [heq, pending, pending]
    exact (List.reverse_perm _).append_right _
  · exact hok

theorem Ok.erase (hok : s.Ok) {rest : List PtrFrame} (hstack : s.stack = .loop v :: rest)
    (hnone : s.ptr v = none) : Ok { s with vars := s.vars.erase v, stack := rest } := by
  have howned := hok.owned
  rw [hstack] at howned
  refine ⟨⟨hok.vars_nodup.erase v, fun w k hw => ?_, fun k => ?_, hok.zero⟩, howned.erase hok.vars_nodup⟩
  · have hne : w ≠ v := fun heq => by rw [heq, hnone] at hw; cases hw
    exact (List.mem_erase_of_ne hne).mpr (hok.ptr_vars w k hw)
  · have hcount := hok.count k
    rw [hstack, stores] at hcount
    unfold pointers at hcount ⊢
    rw [List.countP_erase]
    simpa [hnone] using hcount

theorem Ok.store (hok : s.Ok) {rest : List PtrFrame}
    (hstack : s.stack = .store v p :: rest) : (s.store v p rest).Ok := by
  unfold PtrState.store
  by_cases hv : v ∈ s.vars
  · rw [if_pos hv]
    refine ⟨⟨hok.vars_nodup, mem_of_update hok.ptr_vars hv p, fun k => ?_, hok.zero⟩,
      hok.owned.of_stack ?_ fun k hk => ?_⟩
    · have hcount := hok.count k
      have hupdate := countP_update hok.vars_nodup hv s.ptr p k
      rw [hstack, stores] at hcount
      unfold pointers at hcount ⊢
      simp only [increment_apply]
      omega
    · rw [hstack, pending]
    · rw [hstack]
      exact List.mem_cons_of_mem _ hk
  · rw [if_neg hv]
    exact ⟨⟨hok.vars_nodup, hok.ptr_vars, hok.count, hok.zero⟩, hok.owned⟩

theorem Ok.resume (hok : s.Ok) : s.resume.Ok := by
  rw [PtrState.resume]
  split
  · next v rest heq =>
    split
    · next hnone => exact hok.erase heq hnone
    · exact hok.decRef v
  · next v p rest heq => exact hok.store heq
  · next rest heq =>
    exact hok.of_stack (fun k => by rw [heq]; rfl) (by rw [heq]; rfl) fun k hk => by simpa [heq] using hk
  · next v vs rest heq =>
    exact hok.of_stack (fun k => by rw [heq]; rfl) (by rw [heq]; rfl) fun k hk => by simpa [heq] using hk
  · exact hok

theorem Ok.exec (hok : s.Ok) {a : PtrAction} (ha : s.Allowed a) (hfits : s.Fits (s.incremented a)) : (s.exec a).Ok := by
  have hother : ∀ w, ∀ o ∈ s.ptr w, s.Live o := fun w o ho => hok.live_of_ptr ho
  cases a with
  | newObject vs => exact hok.newObject ha.2.1 ha.2.2
  | construct v p => exact hok.construct ha.2.1 ha.2.2 hfits
  | copy v other => exact hok.construct ha.2.1 (hother other) hfits
  | assign v p => exact hok.assign v ha.2.2 hfits
  | assignFrom v other => exact hok.assign v (hother other) hfits
  | reset v => exact hok.decRef v
  | destroy v => exact hok.destroy ha.2.1 ha.2.2.1 ha.2.2.2
  | ret => exact hok.ret
  | resume => exact hok.resume

/-! ## Every run -/

theorem step_eq {s' : PtrState} {a : PtrAction} (h : step s a = some s') :
    s.faulted = false ∧ s.Allowed a ∧ s' = s.exec a := by
  rw [step, Option.ite_none_right_eq_some] at h
  exact ⟨h.1.1, h.1.2, (Option.some.inj h.2).symm⟩

theorem Ok.step {s' : PtrState} {a : PtrAction} (h : PtrState.step s a = some s') (hok : s.Ok)
    (hfits : s.Fits (s.incremented a)) : s'.Ok := by
  obtain ⟨-, ha, rfl⟩ := step_eq h
  exact hok.exec ha hfits

/-- Every pointer points at an object whose destruction has not begun, every object is deleted at most once, and not
before its last pointer is gone, and every counter is exact, but for the pointers that `assign` overwrites when a
destructor has changed the pointer it assigns to. -/
structure Valid (s : PtrState) : Prop where
  live : ∀ v o, s.ptr v = some o → v ∈ s.vars ∧ s.Live o
  once : s.deleted.Nodup
  unpointed : ∀ o ∈ s.deleted, s.pointers o = 0
  counter : ∀ o, (s.refCounter o).toNat = s.pointers o + stores o s.stack + s.lost o

theorem Ok.valid (hok : s.Ok) : s.Valid := by
  refine ⟨fun v o h => ⟨hok.ptr_vars v o h, hok.live_of_ptr h⟩, hok.owned.deleted_nodup, fun o ho => ?_, hok.count⟩
  have hzero := hok.zero o fun hlive => hlive.2 ho
  have hcount := hok.count o
  rw [hzero, UInt32.toNat_zero] at hcount
  omega

/-- **No dangling pointers**, whatever the destructors do, and whatever they do it to, as long as no counter wraps
around. -/
theorem pointers_valid (acts : List PtrAction)
    (hfits : ∀ t ∈ Run.trace step PtrState.empty acts, t.pre.Fits (t.pre.incremented t.act)) :
    ∀ t ∈ Run.trace step PtrState.empty acts, t.post.Valid := by
  refine Run.forall_taken_where (I := Ok) (C := fun s a => s.Fits (s.incremented a)) ?_ Ok.empty acts hfits
  intro s a s' hstep hok hfits
  exact ⟨hok.step hstep hfits, (hok.step hstep hfits).valid⟩

/-- A destructor assigns a new object to the pointer that is being set to null. -/
def assignInDestructor : List PtrAction :=
  [.newObject [], .construct 0 (some 0), .assign 0 none, .newObject [], .assign 0 (some 1), .resume, .ret, .resume,
    .resume]

theorem pointers_valid_assign :
    ∃ t ∈ Run.trace step PtrState.empty assignInDestructor, t.post.deleted = [0] ∧ t.post.Valid :=
  have ht : 8 < (Run.trace step PtrState.empty assignInDestructor).length := by decide
  ⟨_, List.getElem_mem ht, rfl, pointers_valid assignInDestructor (by decide) _ (List.getElem_mem ht)⟩

/-! ### Leaks -/

/-- The object at which the end of an assignment overwrites a pointer. The pointer was null after `decRef`, so a
destructor has set it. -/
def overwritten (s : PtrState) : Option Nat :=
  match s.stack with
  | .store v _ :: _ => if v ∈ s.vars then s.ptr v else none
  | _ => none

def Overwrites (o : Nat) (t : Run.Taken PtrState PtrAction) : Prop := t.act = .resume ∧ t.pre.overwritten = some o

theorem lost_decRef (s : PtrState) (v : Nat) : (s.decRef v).lost = s.lost := by
  unfold PtrState.decRef
  split
  · rfl
  · split <;> rfl

theorem lost_ret (s : PtrState) : s.ret.lost = s.lost := by
  unfold PtrState.ret
  split <;> rfl

theorem lost_resume (s : PtrState) (o : Nat) :
    s.resume.lost o = s.lost o + if s.overwritten = some o then 1 else 0 := by
  rcases hstack : s.stack with _ | ⟨f, rest⟩
  · simp [PtrState.resume, overwritten, hstack]
  · cases f with
    | loop v =>
      by_cases hnone : s.ptr v = none <;> simp [PtrState.resume, overwritten, hstack, hnone, lost_decRef]
    | store v p =>
      by_cases hv : v ∈ s.vars <;>
        simp [PtrState.resume, PtrState.store, overwritten, hstack, hv, increment_apply]
    | members vs => cases vs <;> simp [PtrState.resume, overwritten, hstack]
    | body k => simp [PtrState.resume, overwritten, hstack]

theorem lost_step {s' : PtrState} {a : PtrAction} (h : PtrState.step s a = some s') (o : Nat) :
    0 < s'.lost o ↔ 0 < s.lost o ∨ Overwrites o ⟨s, a, s'⟩ := by
  obtain ⟨-, -, rfl⟩ := step_eq h
  have hsame : (s.exec a).lost = s.lost → a ≠ .resume →
      (0 < (s.exec a).lost o ↔ 0 < s.lost o ∨ Overwrites o ⟨s, a, s.exec a⟩) := by
    intro heq hne
    rw [heq]
    exact ⟨.inl, fun h => h.resolve_right fun hover => hne hover.1⟩
  cases a with
  | newObject vs => exact hsame rfl (by simp)
  | construct v p => exact hsame rfl (by simp)
  | copy v other => exact hsame rfl (by simp)
  | assign v p => exact hsame (lost_decRef _ v) (by simp)
  | assignFrom v other => exact hsame (lost_decRef _ v) (by simp)
  | reset v => exact hsame (lost_decRef s v) (by simp)
  | destroy v => exact hsame rfl (by simp)
  | ret => exact hsame (lost_ret s) (by simp)
  | resume =>
    have hlost : (s.exec .resume).lost o = _ := lost_resume s o
    rw [hlost]
    by_cases hover : s.overwritten = some o
    · rw [if_pos hover]
      exact ⟨fun _ => .inr ⟨rfl, hover⟩, fun _ => Nat.succ_pos _⟩
    · rw [if_neg hover]
      exact ⟨.inl, fun h => h.resolve_right fun h => hover h.2⟩

theorem lost_final {acts : List PtrAction} {s s' : PtrState} (h : Run.final PtrState.step s acts = some s') (o : Nat) :
    0 < s'.lost o ↔ 0 < s.lost o ∨ ∃ t ∈ Run.trace PtrState.step s acts, Overwrites o t := by
  induction acts generalizing s with
  | nil =>
    cases h
    simp
  | cons a acts ih =>
    rw [Run.final] at h
    rcases ha : PtrState.step s a with _ | s₁ <;> rw [ha] at h
    · cases h
    · rw [Run.trace_cons_some ha, ih h, lost_step ha o]
      simp only [List.mem_cons, exists_eq_or_imp, or_assoc]

/-- A pointer has been at the object: its counter is above zero, or it was deleted. -/
def Managed (s : PtrState) (o : Nat) : Prop := 0 < s.refCounter o ∨ o ∈ s.deleted

theorem Managed.decRef (h : s.Managed o) (v : Nat) : (s.decRef v).Managed o := by
  unfold PtrState.decRef
  split
  · exact h
  · split <;> grind [Managed, Function.update_apply]

theorem Managed.incRef (h : s.Managed o) (hfits : s.Fits p) : (s.incRef p).Managed o := by
  refine h.imp (fun hpos => ?_) id
  change 0 < increment s.refCounter p o
  rw [UInt32.lt_iff_toNat_lt] at hpos ⊢
  rw [toNat_increment hfits]
  exact Nat.lt_of_lt_of_le hpos (Nat.le_add_right _ _)

theorem Managed.resume (h : s.Managed o) : s.resume.Managed o := by
  unfold PtrState.resume PtrState.store
  grind [Managed.decRef, Managed]

theorem Managed.step {s' : PtrState} {a : PtrAction} (hstep : PtrState.step s a = some s') (h : s.Managed o)
    (hfits : s.Fits (s.incremented a)) : s'.Managed o := by
  obtain ⟨-, -, rfl⟩ := step_eq hstep
  have hassign : ∀ v p, s.Fits p → (s.assign v p).Managed o := fun v p hp =>
    Managed.decRef (s := { s.incRef p with stack := .store v p :: s.stack }) (h.incRef hp) v
  cases a with
  | newObject vs => exact h
  | construct v p => exact h.incRef hfits
  | copy v other => exact h.incRef hfits
  | assign v p => exact hassign v p hfits
  | assignFrom v other => exact hassign v _ hfits
  | reset v => exact h.decRef v
  | destroy v => exact h
  | ret =>
    change s.ret.Managed o
    unfold PtrState.ret
    split <;> exact h
  | resume => exact h.resume

theorem Ok.of_final {acts : List PtrAction} {s : PtrState}
    (hfits : ∀ t ∈ Run.trace PtrState.step PtrState.empty acts, t.pre.Fits (t.pre.incremented t.act))
    (h : Run.final PtrState.step PtrState.empty acts = some s) : s.Ok :=
  Run.of_final_where (C := fun s a => s.Fits (s.incremented a)) Ok.step Ok.empty hfits h

/-- **Leaks.** When no counter wraps around and no destructor is running, an object that has had a pointer exists exactly
as long as a pointer points at it, or if the end of some assignment has overwritten a pointer at it that a destructor
had put there. -/
theorem alive_iff_pointed {acts : List PtrAction} {s : PtrState} {o : Nat}
    (h : Run.final step PtrState.empty acts = some s)
    (hfits : ∀ t ∈ Run.trace step PtrState.empty acts, t.pre.Fits (t.pre.incremented t.act)) (hrest : s.stack = [])
    (hmanaged : ∃ t ∈ Run.trace step PtrState.empty acts, 0 < t.post.refCounter o) :
    s.Live o ↔ (∃ v ∈ s.vars, s.ptr v = some o) ∨ ∃ t ∈ Run.trace step PtrState.empty acts, Overwrites o t := by
  have hok := Ok.of_final hfits h
  obtain ⟨t, ht, hpos⟩ := hmanaged
  have hfinal : s.Managed o :=
    Run.of_mem_trace_final_where (I := fun s => s.Managed o) (C := fun s a => s.Fits (s.incremented a)) Managed.step
      hfits ht (.inl hpos) h
  have hlost := lost_final h o
  have hcount := hok.count o
  rw [hrest, stores, Nat.add_zero] at hcount
  constructor
  · intro hlive
    have hpos := (hok.pos_iff o).mp (hfinal.resolve_right hlive.2)
    rw [hrest, stores, Nat.add_zero] at hpos
    by_cases hp : 0 < s.pointers o
    · obtain ⟨v, hv, heq⟩ := List.countP_pos_iff.mp hp
      exact .inl ⟨v, hv, by simpa using heq⟩
    · exact .inr ((hlost.mp (by omega)).resolve_left (by simp [PtrState.empty]))
  · rintro (⟨v, -, heq⟩ | hover)
    · exact hok.live_of_ptr heq
    · have hpos := hlost.mpr (.inr hover)
      exact hok.live_of_pos ((hok.pos_iff o).mpr (by omega))

theorem alive_iff_pointed_assign : ∃ s, Run.final step PtrState.empty assignInDestructor = some s ∧
    (s.Live 1 ↔ (∃ v ∈ s.vars, s.ptr v = some 1) ∨
      ∃ t ∈ Run.trace step PtrState.empty assignInDestructor, Overwrites 1 t) :=
  ⟨_, rfl, alive_iff_pointed (show Run.final step PtrState.empty assignInDestructor = some _ from rfl) (by decide) rfl
    ⟨_, List.getElem_mem (show 4 < (Run.trace step PtrState.empty assignInDestructor).length by decide), by decide⟩⟩

/-! ### Reachability -/

/-- A live object has a member that points at another one. -/
def Holds (s : PtrState) (o o' : Nat) : Prop := s.Live o ∧ ∃ v ∈ s.members o, s.ptr v = some o'

/-- An object that is held from outside: by a pointer that is no member, or as a dumb pointer that was never given to a
pointer. -/
def Root (s : PtrState) (o : Nat) : Prop :=
  (∃ v ∈ s.vars, s.Free v ∧ s.ptr v = some o) ∨ s.Live o ∧ s.refCounter o = 0

/-- **No leaks without circles.** When no counter wraps around, no destructor is running and no assignment has
overwritten a pointer, then in a structure without circles exactly the objects exist that can be reached from
outside. -/
theorem alive_iff_reachable {acts : List PtrAction} {s : PtrState} (h : Run.final step PtrState.empty acts = some s)
    (hfits : ∀ t ∈ Run.trace step PtrState.empty acts, t.pre.Fits (t.pre.incremented t.act)) (hrest : s.stack = [])
    (hkept : ∀ o, ∀ t ∈ Run.trace step PtrState.empty acts, ¬Overwrites o t)
    (hcircle : ∀ o, ¬Relation.TransGen s.Holds o o) (o : Nat) :
    s.Live o ↔ ∃ r, s.Root r ∧ Relation.ReflTransGen s.Holds r o := by
  have hok := Ok.of_final hfits h
  have hlive : ∀ {k}, s.Root k → s.Live k := by
    rintro k (⟨v, -, -, heq⟩ | ⟨hl, -⟩)
    · exact hok.live_of_ptr heq
    · exact hl
  constructor
  · intro ho
    -- the objects that hold others directly or indirectly are fewer and fewer
    let below : Fin s.fresh → Fin s.fresh → Prop := fun a b => Relation.TransGen s.Holds a b
    have htrans : IsTrans (Fin s.fresh) below := ⟨fun _ _ _ => Relation.TransGen.trans⟩
    have hirrefl : Std.Irrefl below := ⟨fun a => hcircle a⟩
    have hwf : WellFounded below := Finite.wellFounded_of_trans_of_irrefl below
    have hall : ∀ k : Fin s.fresh, s.Live k → ∃ r, s.Root r ∧ Relation.ReflTransGen s.Holds r k := by
      intro k
      induction k using hwf.induction with
      | _ k ih =>
        intro hk
        by_cases hzero : s.refCounter k = 0
        · exact ⟨k, .inr ⟨hk, hzero⟩, .refl⟩
        · have hlost : ¬0 < s.lost k := by
            rw [lost_final h k]
            rintro (hpos | ⟨t, ht, hover⟩)
            · exact Nat.lt_irrefl _ hpos
            · exact hkept _ t ht hover
          have hcount := (hok.pos_iff k).mp (UInt32.pos_iff_ne_zero.mpr hzero)
          rw [hrest, stores, Nat.add_zero] at hcount
          have hpos : 0 < s.pointers k := by omega
          obtain ⟨v, hv, heq⟩ := List.countP_pos_iff.mp hpos
          have heq : s.ptr v = some (k : Nat) := by simpa using heq
          by_cases hfree : s.Free v
          · exact ⟨k, .inl ⟨v, hv, hfree, heq⟩, .refl⟩
          · obtain ⟨k', hk', hmem⟩ : ∃ k' < s.fresh, v ∈ s.members k' := by simpa [Free] using hfree
            have hdel : k' ∉ s.deleted := by
              intro hdel
              have hpend := hok.owned.dead_members k' hdel v hmem hv
              rw [hrest] at hpend
              exact List.not_mem_nil hpend
            have hholds : s.Holds k' k := ⟨⟨hk', hdel⟩, v, hmem, heq⟩
            obtain ⟨r, hr, hpath⟩ := ih ⟨k', hk'⟩ (.single hholds) ⟨hk', hdel⟩
            exact ⟨r, hr, hpath.tail hholds⟩
    exact hall ⟨o, ho.1⟩ ho
  · rintro ⟨r, hr, hpath⟩
    cases hpath with
    | refl => exact hlive hr
    | tail _ hlast =>
      obtain ⟨-, v, -, heq⟩ := hlast
      exact hok.live_of_ptr heq

/-- Pointer 0 points at object 0, whose member, pointer 1, points at object 1. -/
def chain : List PtrAction := [.newObject [1], .newObject [], .construct 0 (some 0), .assign 1 (some 1), .resume]

theorem alive_iff_reachable_chain : ∃ s, Run.final step PtrState.empty chain = some s ∧
    (s.Live 1 ↔ ∃ r, s.Root r ∧ Relation.ReflTransGen s.Holds r 1) := by
  refine ⟨_, rfl, alive_iff_reachable (show Run.final step PtrState.empty chain = some _ from rfl) (by decide) rfl
    ?_ ?_ 1⟩
  · intro o t ht hover
    have hnone : ∀ t ∈ Run.trace step PtrState.empty chain, t.pre.overwritten = none := by decide
    rw [Overwrites, hnone t ht] at hover
    exact Option.some_ne_none o hover.2.symm
  · intro o ho
    obtain ⟨_, ⟨-, v, hv, -⟩, -⟩ := Relation.TransGen.head'_iff.mp ho
    obtain ⟨_, -, -, w, hw, hptr⟩ := Relation.TransGen.tail'_iff.mp ho
    have hmem : ∀ {a v}, v ∈ Function.update (Function.update (fun _ => []) 0 [1]) 1 [] a → a = 0 ∧ v = 1
      | 0, _, hv => ⟨rfl, List.mem_singleton.mp hv⟩
      | 1, _, hv => absurd hv List.not_mem_nil
      | _ + 2, _, hv => absurd hv List.not_mem_nil
    rw [(hmem hw).2, (hmem hv).1] at hptr
    exact absurd hptr (by decide)

end PtrState

end Afl.Base
