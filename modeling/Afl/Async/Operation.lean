import Afl.Lib.Run
import Mathlib.Algebra.Group.Nat.Defs
import Mathlib.Data.List.Nodup
import Mathlib.Logic.Function.Basic

/-!
# Operations, controllers and queues of waiters

`afl/async/operation.hpp`, `operationlist.hpp` and the lists of completed operations in `controller.cpp`. A
synchronisation object queues operations and notifies them; the notifier of an operation is the default one,
which posts it to its controller. Controllers and operations are identified by values of arbitrary types.
-/

set_option linter.unusedSectionVars false

namespace Afl.Async

variable {κ ω : Type} [DecidableEq κ] [DecidableEq ω]

/-- What a synchronisation object and its environment know of the operations. -/
structure Queue (κ ω : Type) where
  /-- `Operation::m_pController`. -/
  controller : ω → Option κ
  /-- The lists `Controller::m_completedOperations` of all controllers, merged in the order of the posts. -/
  completed : List (κ × ω)
  /-- The object's `m_waiters`. -/
  waiters : List ω
  /-- How often the operation was notified since it was last submitted. The code does not keep this number. -/
  signals : ω → Nat

namespace Queue

/-- `op.setController(&ctl)`, which begins every submission. -/
def setController (q : Queue κ ω) (ctl : κ) (op : ω) : Queue κ ω :=
  { q with controller := Function.update q.controller op (some ctl), signals := Function.update q.signals op 0 }

def pushBack (q : Queue κ ω) (op : ω) : Queue κ ω := { q with waiters := q.waiters ++ [op] }

/-- `op.getNotifier().notify(op)`. -/
def notify (q : Queue κ ω) (op : ω) : Queue κ ω :=
  match q.controller op with
  | none => q
  | some ctl =>
    { q with completed := q.completed ++ [(ctl, op)], signals := Function.update q.signals op (q.signals op + 1) }

def extractByController (controller : ω → Option κ) (ctl : Option κ) : List ω → Option (ω × List ω)
  | [] => none
  | op :: waiters =>
    if controller op = ctl then some (op, waiters)
    else (extractByController controller ctl waiters).map fun r => (r.1, op :: r.2)

/-- The body of `cancel` of all synchronisation objects: `m_waiters.remove(&op); ctl.revertPost(op);`. -/
def cancel (q : Queue κ ω) (ctl : κ) (op : ω) : Queue κ ω :=
  { q with waiters := q.waiters.erase op, completed := q.completed.erase (ctl, op) }

/-- A call of `Controller::wait` that returns the operation. -/
def take (q : Queue κ ω) (ctl : κ) (op : ω) : Queue κ ω := { q with completed := q.completed.erase (ctl, op) }

/-- The operation was submitted and its completion was not collected yet. -/
def Outstanding (q : Queue κ ω) (op : ω) : Prop := op ∈ q.waiters ∨ op ∈ q.completed.map Prod.snd

instance (q : Queue κ ω) (op : ω) : Decidable (q.Outstanding op) := inferInstanceAs (Decidable (_ ∨ _))

instance (q : Queue κ ω) (ctl : κ) (op : ω) : Decidable ((ctl, op) ∈ q.completed) :=
  List.instDecidableMemOfLawfulBEq (ctl, op) q.completed

end Queue

/-! ### Synchronisation objects -/

/-- A synchronisation object: its queue and the two operations that differ. -/
structure SynchronisationObject (κ ω σ : Type) where
  queue : σ → Queue κ ω
  setQueue : σ → Queue κ ω → σ
  queue_setQueue : ∀ s q, queue (setQueue s q) = q
  waitAsync : κ → ω → σ → σ
  post : κ → σ → σ
  /-- Whether a post by the controller does anything. -/
  takesEffect : κ → σ → Bool

/-- What a thread can do to a synchronisation object, each under the object's mutex. -/
inductive Act (κ ω : Type)
  | waitAsync (ctl : κ) (op : ω)
  | post (ctl : κ)
  | cancel (ctl : κ) (op : ω)
  | take (ctl : κ) (op : ω)

/-- One step of the threads. No operation is submitted again while it is outstanding. -/
def SynchronisationObject.step {σ : Type} (obj : SynchronisationObject κ ω σ) (s : σ) : Act κ ω → Option σ
  | .waitAsync ctl op => if (obj.queue s).Outstanding op then none else some (obj.waitAsync ctl op s)
  | .post ctl => some (obj.post ctl s)
  | .cancel ctl op => some (obj.setQueue s ((obj.queue s).cancel ctl op))
  | .take ctl op =>
    if (ctl, op) ∈ (obj.queue s).completed then some (obj.setQueue s ((obj.queue s).take ctl op)) else none

variable {op : ω}

theorem SynchronisationObject.step_waitAsync {σ : Type} {obj : SynchronisationObject κ ω σ} {s s' : σ} {ctl : κ}
    (h : obj.step s (.waitAsync ctl op) = some s') :
    ¬(obj.queue s).Outstanding op ∧ s' = obj.waitAsync ctl op s := by
  rw [step] at h
  split_ifs at h with hout
  exact ⟨hout, (Option.some.inj h).symm⟩

theorem SynchronisationObject.step_take {σ : Type} {obj : SynchronisationObject κ ω σ} {s s' : σ} {ctl : κ}
    (h : obj.step s (.take ctl op) = some s') :
    (ctl, op) ∈ (obj.queue s).completed ∧ s' = obj.setQueue s ((obj.queue s).take ctl op) := by
  rw [step] at h
  split_ifs at h with hmem
  exact ⟨hmem, (Option.some.inj h).symm⟩

theorem SynchronisationObject.step_cases {σ : Type} {obj : SynchronisationObject κ ω σ} {s s' : σ} {a : Act κ ω}
    (h : obj.step s a = some s') :
    (∃ ctl op, a = .waitAsync ctl op ∧ ¬(obj.queue s).Outstanding op ∧ s' = obj.waitAsync ctl op s) ∨
      (∃ ctl, a = .post ctl ∧ s' = obj.post ctl s) ∨
      (∃ ctl op, a = .cancel ctl op ∧ s' = obj.setQueue s ((obj.queue s).cancel ctl op)) ∨
      ∃ ctl op, a = .take ctl op ∧ (ctl, op) ∈ (obj.queue s).completed ∧
        s' = obj.setQueue s ((obj.queue s).take ctl op) := by
  cases a with
  | waitAsync ctl op => exact .inl ⟨ctl, op, rfl, step_waitAsync h⟩
  | post ctl => exact .inr (.inl ⟨ctl, rfl, (Option.some.inj h).symm⟩)
  | cancel ctl op => exact .inr (.inr (.inl ⟨ctl, op, rfl, (Option.some.inj h).symm⟩))
  | take ctl op => exact .inr (.inr (.inr ⟨ctl, op, rfl, step_take h⟩))

/-! ### Counters -/

theorem toNat_add_one {n : UInt32} (h : n ≠ 0xFFFFFFFF) : (n + 1).toNat = n.toNat + 1 := by
  have hne : n.toNat ≠ 0xFFFFFFFF := fun heq => h (UInt32.toNat_inj.mp heq)
  have hlt := n.toNat_lt
  rw [UInt32.toNat_add]
  simp
  omega

theorem toNat_sub_one {n : UInt32} (h : n ≠ 0) : (n - 1).toNat = n.toNat - 1 := by
  have hne : n.toNat ≠ 0 := fun heq => h (UInt32.toNat_inj.mp heq)
  refine UInt32.toNat_sub_of_le n 1 ?_
  rw [UInt32.le_iff_toNat_le]
  simp
  omega

namespace Queue

/-! ### Orderly queues -/

/-- Nothing waits twice or was notified twice, and what waits is still to be notified, on a controller. -/
structure Orderly (q : Queue κ ω) : Prop where
  nodup : q.waiters.Nodup
  once : ∀ op, q.signals op ≤ 1
  fresh : ∀ op ∈ q.waiters, q.signals op = 0
  known : ∀ op ∈ q.waiters, ∃ ctl, q.controller op = some ctl

@[simp] theorem waiters_notify (q : Queue κ ω) (op : ω) : (q.notify op).waiters = q.waiters := by
  rw [notify]
  split <;> rfl

@[simp] theorem controller_notify (q : Queue κ ω) (op : ω) : (q.notify op).controller = q.controller := by
  rw [notify]
  split <;> rfl

variable {q : Queue κ ω}

theorem notify_of_known {ctl : κ} (h : q.controller op = some ctl) :
    q.notify op =
      { q with
        completed := q.completed ++ [(ctl, op)]
        signals := Function.update q.signals op (q.signals op + 1) } := by
  rw [notify, h]

theorem Orderly.notify (hq : q.Orderly) (hop : op ∉ q.waiters) (hfresh : q.signals op = 0) :
    (q.notify op).Orderly := by
  rcases hctl : q.controller op with _ | ctl
  · rw [Queue.notify, hctl]
    exact hq
  · rw [notify_of_known hctl]
    refine ⟨hq.nodup, ?_, ?_, hq.known⟩
    · intro op'
      by_cases h : op' = op
      · subst h
        simp [hfresh]
      · simpa [Function.update_of_ne h] using hq.once op'
    · intro op' hop'
      have h : op' ≠ op := fun h => hop (h ▸ hop')
      simpa [Function.update_of_ne h] using hq.fresh op' hop'

theorem Orderly.erase (hq : q.Orderly) (op : ω) :
    Orderly { q with waiters := q.waiters.erase op } where
  nodup := hq.nodup.erase op
  once := hq.once
  fresh := fun op' hop' => hq.fresh op' (List.mem_of_mem_erase hop')
  known := fun op' hop' => hq.known op' (List.mem_of_mem_erase hop')

def grant (q : Queue κ ω) (op : ω) : Queue κ ω := Queue.notify { q with waiters := q.waiters.erase op } op

theorem Orderly.grant (hq : q.Orderly) (hop : op ∈ q.waiters) : (q.grant op).Orderly := by
  refine (hq.erase op).notify ?_ (hq.fresh op hop)
  exact fun h => ((List.Nodup.mem_erase_iff hq.nodup).mp h).1 rfl

theorem Orderly.setController (hq : q.Orderly) (hop : op ∉ q.waiters) (ctl : κ) :
    (q.setController ctl op).Orderly := by
  have hne : ∀ op' ∈ q.waiters, op' ≠ op := by
    rintro op' hop' rfl
    exact hop hop'
  refine ⟨hq.nodup, ?_, ?_, ?_⟩
  · intro op'
    by_cases h : op' = op
    · subst h
      simp [Queue.setController]
    · simpa [Queue.setController, Function.update_of_ne h] using hq.once op'
  · intro op' hop'
    simpa [Queue.setController, Function.update_of_ne (hne op' hop')] using hq.fresh op' hop'
  · intro op' hop'
    simpa [Queue.setController, Function.update_of_ne (hne op' hop')] using hq.known op' hop'

theorem Orderly.submit_notify (hq : q.Orderly) (hop : op ∉ q.waiters) (ctl : κ) :
    ((q.setController ctl op).notify op).Orderly :=
  (hq.setController hop ctl).notify hop (Function.update_self op 0 q.signals)

theorem Orderly.submit_pushBack (hq : q.Orderly) (hop : op ∉ q.waiters) (ctl : κ) :
    ((q.setController ctl op).pushBack op).Orderly := by
  have hset := hq.setController hop ctl
  refine ⟨?_, hset.once, ?_, ?_⟩
  · exact hset.nodup.append (List.nodup_singleton op) (List.disjoint_singleton.mpr hop)
  · intro op' hop'
    rcases List.mem_append.mp hop' with h | h
    · exact hset.fresh op' h
    · rw [List.mem_singleton.mp h]
      exact Function.update_self op 0 q.signals
  · intro op' hop'
    rcases List.mem_append.mp hop' with h | h
    · exact hset.known op' h
    · rw [List.mem_singleton.mp h]
      exact ⟨ctl, by simp [Queue.pushBack, Queue.setController]⟩

theorem Orderly.cancel (hq : q.Orderly) (ctl : κ) (op : ω) : (q.cancel ctl op).Orderly :=
  let h := hq.erase op
  ⟨h.nodup, h.once, h.fresh, h.known⟩

theorem Orderly.take (hq : q.Orderly) (ctl : κ) (op : ω) : (q.take ctl op).Orderly :=
  ⟨hq.nodup, hq.once, hq.fresh, hq.known⟩

/-! ### Completed operations -/

/-- How many completed operations wait to be collected on controllers of a kind. -/
def notified (q : Queue κ ω) (p : κ → Bool) : Nat := q.completed.countP fun e => p e.1

/-- One operation of the controller, counted if the controller is of the kind. -/
def unit (p : κ → Bool) (ctl : κ) : Nat := if p ctl then 1 else 0

theorem countP_cons_unit (p : κ → Bool) (ctl : κ) (l : List κ) : (ctl :: l).countP p = l.countP p + unit p ctl := by
  rw [List.countP_cons, unit]

theorem notified_of_append {q q' : Queue κ ω} {ctl : κ} (h : q'.completed = q.completed ++ [(ctl, op)])
    (p : κ → Bool) : q'.notified p = q.notified p + unit p ctl := by
  rw [notified, h, List.countP_append, notified, List.countP_singleton, unit]

theorem notified_of_erase (q' : Queue κ ω) {ctl : κ} (hmem : (ctl, op) ∈ q.completed)
    (h : q'.completed = q.completed.erase (ctl, op)) (p : κ → Bool) : q.notified p = q'.notified p + unit p ctl := by
  rw [notified, (List.perm_cons_erase hmem).countP_eq, List.countP_cons, notified, h, unit]

theorem completed_submit_notify (q : Queue κ ω) (ctl : κ) (op : ω) :
    ((q.setController ctl op).notify op).completed = q.completed ++ [(ctl, op)] := by
  have hctl : (q.setController ctl op).controller op = some ctl := by simp [setController]
  rw [notify_of_known hctl]
  rfl

theorem completed_grant {ctl : κ} (hctl : q.controller op = some ctl) :
    (q.grant op).completed = q.completed ++ [(ctl, op)] := by
  rw [Queue.grant, notify_of_known (q := { q with waiters := q.waiters.erase op }) hctl]

/-! ### Extraction by controller -/

theorem extractByController_some {controller : ω → Option κ} {ctl : Option κ} {waiters rest : List ω}
    (h : extractByController controller ctl waiters = some (op, rest)) :
    op ∈ waiters ∧ controller op = ctl ∧ rest = waiters.erase op := by
  induction waiters generalizing rest with
  | nil => cases h
  | cons head waiters ih =>
    rw [extractByController] at h
    split_ifs at h with hhead
    · cases h
      exact ⟨List.mem_cons_self, hhead, by simp⟩
    · obtain ⟨found, hfound, heq⟩ := Option.map_eq_some_iff.mp h
      obtain ⟨rfl, rfl⟩ := Prod.mk.inj heq
      obtain ⟨hmem, hctl, hrest⟩ := ih hfound
      have hne : head ≠ found.1 := fun heq => hhead (heq ▸ hctl)
      refine ⟨List.mem_cons_of_mem head hmem, hctl, ?_⟩
      rw [hrest, List.erase_cons_tail (by simpa using hne)]

theorem extractByController_none {controller : ω → Option κ} {ctl : Option κ} {waiters : List ω}
    (h : extractByController controller ctl waiters = none) : ∀ op ∈ waiters, controller op ≠ ctl := by
  induction waiters with
  | nil =>
    intro op hop
    cases hop
  | cons head waiters ih =>
    rw [extractByController] at h
    split_ifs at h with hhead
    exact List.forall_mem_cons.mpr ⟨hhead, ih (Option.map_eq_none_iff.mp h)⟩

end Queue

end Afl.Async
