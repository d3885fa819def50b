import Afl.Async.Semaphore

/-!
# Waiting with a timeout

`Semaphore::wait` and `Mutex::wait` submit an operation, wait for it on the controller, and cancel it when that
times out. Between the timeout and the cancel the operation can still be notified; `cancel` then takes it back
from the controller, but the object has counted it. The books of the waits say where every notification went.
-/

set_option linter.unusedSectionVars false

namespace Afl.Async

open Run

variable {κ ω : Type} [DecidableEq κ] [DecidableEq ω] {σ : Type}

/-- A synchronisation object and the books of the waits. -/
structure Waits (κ ω σ : Type) where
  object : σ
  /-- The operations of waits that have timed out and are not cancelled yet. -/
  timedOut : List ω
  /-- The controllers of the posts that took effect. -/
  posts : List κ
  /-- The controllers of the waits that returned true. -/
  returned : List κ
  /-- The controllers of the waits that returned false and whose operation was notified when they were cancelled. -/
  dropped : List κ

/-- What happens next, in any of the threads. -/
inductive WaitAct (κ ω : Type)
  /-- `waitAsync(ctl, op)` in `wait`. -/
  | start (ctl : κ) (op : ω)
  /-- `ctl.wait(op, timeout)` returns false. -/
  | timeout (op : ω)
  /-- `cancel(ctl, op)` in `wait`, which then returns false. -/
  | cancel (ctl : κ) (op : ω)
  /-- `ctl.wait(op, timeout)` returns true, and so does `wait`. -/
  | succeed (ctl : κ) (op : ω)
  | post (ctl : κ)

/-- One step of the waits. A wait times out only while its operation is not notified. -/
def SynchronisationObject.waitStep (obj : SynchronisationObject κ ω σ) (w : Waits κ ω σ) :
    WaitAct κ ω → Option (Waits κ ω σ)
  | .start ctl op => (obj.step w.object (.waitAsync ctl op)).map fun s => { w with object := s }
  | .timeout op =>
    if op ∈ (obj.queue w.object).waiters ∧ op ∉ w.timedOut then some { w with timedOut := op :: w.timedOut } else none
  | .cancel ctl op =>
    if op ∈ w.timedOut ∧ (obj.queue w.object).controller op = some ctl then
      (obj.step w.object (.cancel ctl op)).map fun s =>
        { w with
          object := s
          timedOut := w.timedOut.erase op
          dropped := if (ctl, op) ∈ (obj.queue w.object).completed then ctl :: w.dropped else w.dropped }
    else none
  | .succeed ctl op =>
    if op ∈ w.timedOut then none
    else (obj.step w.object (.take ctl op)).map fun s => { w with object := s, returned := ctl :: w.returned }
  | .post ctl =>
    (obj.step w.object (.post ctl)).map fun s =>
      { w with object := s, posts := if obj.takesEffect ctl w.object then ctl :: w.posts else w.posts }

def Waits.new (s : σ) : Waits κ ω σ := ⟨s, [], [], [], []⟩

/-- The operation is notified between the timeout of its wait and the cancel. -/
def SynchronisationObject.Drops (obj : SynchronisationObject κ ω σ) (w : Waits κ ω σ) : WaitAct κ ω → Prop
  | .cancel ctl op => (ctl, op) ∈ (obj.queue w.object).completed
  | _ => False

variable {obj : SynchronisationObject κ ω σ} {a : WaitAct κ ω}

theorem SynchronisationObject.waitStep_cases {w w' : Waits κ ω σ} (h : obj.waitStep w a = some w') :
    (∃ ctl op s, a = .start ctl op ∧ obj.step w.object (.waitAsync ctl op) = some s ∧ w' = { w with object := s }) ∨
      (∃ op, a = .timeout op ∧ w' = { w with timedOut := op :: w.timedOut }) ∨
      (∃ ctl op s, a = .cancel ctl op ∧ obj.step w.object (.cancel ctl op) = some s ∧
        w' = { w with
          object := s
          timedOut := w.timedOut.erase op
          dropped := if (ctl, op) ∈ (obj.queue w.object).completed then ctl :: w.dropped else w.dropped }) ∨
      (∃ ctl op s, a = .succeed ctl op ∧ obj.step w.object (.take ctl op) = some s ∧
        w' = { w with object := s, returned := ctl :: w.returned }) ∨
      ∃ ctl s, a = .post ctl ∧ obj.step w.object (.post ctl) = some s ∧
        w' = { w with object := s, posts := if obj.takesEffect ctl w.object then ctl :: w.posts else w.posts } := by
  cases a with
  | start ctl op =>
    obtain ⟨s, hs, rfl⟩ := Option.map_eq_some_iff.mp h
    exact .inl ⟨ctl, op, s, rfl, hs, rfl⟩
  | timeout op =>
    rw [waitStep] at h
    split_ifs at h
    exact .inr (.inl ⟨op, rfl, (Option.some.inj h).symm⟩)
  | cancel ctl op =>
    rw [waitStep] at h
    by_cases hguard : op ∈ w.timedOut ∧ (obj.queue w.object).controller op = some ctl
    · rw [if_pos hguard] at h
      obtain ⟨s, hs, rfl⟩ := Option.map_eq_some_iff.mp h
      exact .inr (.inr (.inl ⟨ctl, op, s, rfl, hs, rfl⟩))
    · rw [if_neg hguard] at h
      cases h
  | succeed ctl op =>
    rw [waitStep] at h
    split_ifs at h
    obtain ⟨s, hs, rfl⟩ := Option.map_eq_some_iff.mp h
    exact .inr (.inr (.inr (.inl ⟨ctl, op, s, rfl, hs, rfl⟩)))
  | post ctl =>
    rw [waitStep] at h
    obtain ⟨s, hs, rfl⟩ := Option.map_eq_some_iff.mp h
    exact .inr (.inr (.inr (.inr ⟨ctl, s, rfl, hs, rfl⟩)))

/-- The step makes a counter of the object wrap around. -/
def WaitAct.Wraps (wraps : σ → Act κ ω → Prop) (w : Waits κ ω σ) : WaitAct κ ω → Prop
  | .start ctl op => wraps w.object (.waitAsync ctl op)
  | .timeout _ => False
  | .cancel ctl op => wraps w.object (.cancel ctl op)
  | .succeed ctl op => wraps w.object (.take ctl op)
  | .post ctl => wraps w.object (.post ctl)

theorem SynchronisationObject.waitStep_object {I : σ → Prop}
    {wraps : σ → Act κ ω → Prop} (hstep : ∀ {s a s'}, obj.step s a = some s' → I s → ¬wraps s a → I s')
    {w w' : Waits κ ω σ} (h : obj.waitStep w a = some w') (hw : I w.object)
    (hwraps : ¬WaitAct.Wraps wraps w a) : I w'.object := by
  obtain ⟨ctl, op, s, rfl, hs, rfl⟩ | ⟨op, -, rfl⟩ | ⟨ctl, op, s, rfl, hs, rfl⟩ | ⟨ctl, op, s, rfl, hs, rfl⟩ |
    ⟨ctl, s, rfl, hs, rfl⟩ := waitStep_cases h
  · exact hstep hs hw hwraps
  · exact hw
  · exact hstep hs hw hwraps
  · exact hstep hs hw hwraps
  · exact hstep hs hw hwraps

/-! ### Notifications -/

/-- The notifications of controllers of a kind, wherever they have gone. -/
def Waits.accounted (obj : SynchronisationObject κ ω σ) (p : κ → Bool) (w : Waits κ ω σ) : Nat :=
  w.returned.countP p + (obj.queue w.object).notified p + w.dropped.countP p

theorem Waits.accounted_succeed (p : κ → Bool) (w : Waits κ ω σ) {ctl : κ} {op : ω}
    (hmem : (ctl, op) ∈ (obj.queue w.object).completed) :
    accounted obj p { w with
      object := obj.setQueue w.object ((obj.queue w.object).take ctl op)
      returned := ctl :: w.returned } = accounted obj p w := by
  have hcount := Queue.notified_of_erase ((obj.queue w.object).take ctl op) hmem rfl p
  simp only [accounted, obj.queue_setQueue, Queue.countP_cons_unit]
  omega

theorem Waits.accounted_cancel (p : κ → Bool) (w : Waits κ ω σ) (ctl : κ) (op : ω) :
    accounted obj p { w with
      object := obj.setQueue w.object ((obj.queue w.object).cancel ctl op)
      timedOut := w.timedOut.erase op
      dropped := if (ctl, op) ∈ (obj.queue w.object).completed then ctl :: w.dropped else w.dropped } =
      accounted obj p w := by
  by_cases hmem : (ctl, op) ∈ (obj.queue w.object).completed
  · have hcount := Queue.notified_of_erase ((obj.queue w.object).cancel ctl op) hmem rfl p
    simp only [accounted, obj.queue_setQueue, if_pos hmem, Queue.countP_cons_unit]
    omega
  · have hsame : (obj.queue w.object).completed.erase (ctl, op) = (obj.queue w.object).completed :=
      List.erase_of_not_mem hmem
    simp only [accounted, obj.queue_setQueue, if_neg hmem, Queue.notified, Queue.cancel, hsame]

/-! ### The semaphore's books -/

/-- The post bumps a value that cannot grow. -/
def Semaphore.Wraps (s : Semaphore κ ω) : Act κ ω → Prop
  | .post _ => s.queue.waiters = [] ∧ s.value = 0xFFFFFFFF
  | .waitAsync _ _ | .cancel _ _ | .take _ _ => False

def everyone : κ → Bool := fun _ => true

theorem countP_everyone (l : List κ) : l.countP everyone = l.length := congrFun List.countP_true l

theorem Semaphore.value_waitAsync (s : Semaphore κ ω) (ctl : κ) (op : ω) :
    (s.waitAsync ctl op).value.toNat + (s.waitAsync ctl op).queue.notified everyone =
      s.value.toNat + s.queue.notified everyone := by
  rw [waitAsync]
  split_ifs with hvalue
  · rfl
  · have hpos : s.value.toNat ≠ 0 := fun heq => hvalue (UInt32.toNat_inj.mp heq)
    have hcount := Queue.notified_of_append (Queue.completed_submit_notify s.queue ctl op) everyone
    simp only [toNat_sub_one hvalue, hcount, Queue.unit, everyone, if_true]
    omega

theorem Semaphore.value_post {s : Semaphore κ ω} (hs : s.Inv) (ctl : κ) (hwraps : ¬s.Wraps (.post ctl)) :
    s.post.value.toNat + s.post.queue.notified everyone = s.value.toNat + s.queue.notified everyone + 1 := by
  rcases post_cases s with ⟨op, waiters, hwaiters, hpost⟩ | ⟨hwaiters, hpost⟩
  · obtain ⟨next, hnext⟩ := hs.orderly.known op (by rw [hwaiters]; exact List.mem_cons_self)
    have hcount := Queue.notified_of_append (Queue.completed_grant hnext) everyone
    rw [hpost]
    simp only [hcount, Queue.unit, everyone, if_true]
    omega
  · have hmax : s.value ≠ 0xFFFFFFFF := fun hmax => hwraps ⟨hwaiters, hmax⟩
    rw [hpost]
    simp only [toNat_add_one hmax]
    omega

/-- Every post and every unit of the initial value is in the value or was a notification. -/
structure Semaphore.Balanced (initialValue : UInt32) (w : Waits κ ω (Semaphore κ ω)) : Prop where
  inv : w.object.Inv
  total : initialValue.toNat + w.posts.length = w.object.value.toNat + w.accounted object everyone

theorem Semaphore.balanced_step {initialValue : UInt32} {w w' : Waits κ ω (Semaphore κ ω)}
    (h : object.waitStep w a = some w') (hw : Balanced initialValue w) (hwraps : ¬WaitAct.Wraps Wraps w a) :
    Balanced initialValue w' := by
  refine ⟨SynchronisationObject.waitStep_object (fun hs hinv _ => inv_step hs hinv) h hw.inv hwraps, ?_⟩
  have htotal := hw.total
  obtain ⟨ctl, op, s, rfl, hs, rfl⟩ | ⟨op, rfl, rfl⟩ | ⟨ctl, op, s, rfl, hs, rfl⟩ | ⟨ctl, op, s, rfl, hs, rfl⟩ |
    ⟨ctl, s, rfl, hs, rfl⟩ := SynchronisationObject.waitStep_cases h
  · obtain ⟨-, rfl⟩ := SynchronisationObject.step_waitAsync hs
    have hvalue := value_waitAsync w.object ctl op
    simp only [Waits.accounted, object] at htotal ⊢
    omega
  · exact htotal
  · obtain rfl := Option.some.inj hs
    rw [Waits.accounted_cancel]
    exact htotal
  · obtain ⟨hmem, rfl⟩ := SynchronisationObject.step_take hs
    rw [Waits.accounted_succeed _ _ hmem]
    exact htotal
  · obtain rfl := Option.some.inj hs
    have hvalue := value_post hw.inv ctl hwraps
    simp only [Waits.accounted, object, if_true, List.length_cons] at htotal ⊢
    omega

/-! ### The mutex's books -/

def Mutex.held (s : Mutex κ ω) (ctl : κ) : Nat := if s.owner = some ctl then s.nestingLevel.toNat else 0

theorem Mutex.held_waitAsync {s : Mutex κ ω} (ctl : κ) (op : ω) (hwraps : ¬s.Wraps (.waitAsync ctl op)) (c : κ) :
    (s.waitAsync ctl op).held c + s.queue.notified (· == c) =
      s.held c + (s.waitAsync ctl op).queue.notified (· == c) := by
  have hcount := Queue.notified_of_append (Queue.completed_submit_notify s.queue ctl op) (· == c)
  rw [waitAsync]
  split_ifs with howner hnone
  · have hmax : s.nestingLevel ≠ 0xFFFFFFFF := fun hmax => hwraps ⟨howner, hmax⟩
    simp only [held, howner, hcount, toNat_add_one hmax, Queue.unit, Option.some.injEq, beq_iff_eq]
    split_ifs <;> omega
  · simp only [held, hnone, hcount, Queue.unit, Option.some.injEq, beq_iff_eq, reduceCtorEq, if_false,
      UInt32.toNat_one]
    omega
  · rfl

theorem Mutex.Grants.notified {ctl : κ} {n : Nat} {s s' : Mutex κ ω} (h : Grants ctl n s s') (p : κ → Bool) :
    s'.queue.notified p = s.queue.notified p + n * Queue.unit p ctl := by
  obtain ⟨granted, rfl, hcompleted⟩ := h.completed
  rw [Queue.notified, hcompleted, List.countP_append, List.countP_map, Queue.notified, Queue.unit]
  by_cases hctl : p ctl
  · simp [Function.comp_def, hctl]
  · simp [Function.comp_def, hctl]

theorem Mutex.held_post {s : Mutex κ ω} (hs : s.Inv) (hlevel : s.nestingLevel = 0 → s.owner = none) (ctl : κ)
    (hwraps : ¬s.Wraps (.post ctl)) (c : κ) :
    (s.post ctl).held c + s.queue.notified (· == c) + (if s.owner = some ctl then Queue.unit (· == c) ctl else 0) =
      s.held c + (s.post ctl).queue.notified (· == c) := by
  cases posts_post hs.orderly ctl with
  | ignored howner h =>
    rw [h, if_neg howner, Nat.add_zero]
  | nested howner _ h =>
    have hzero : s.nestingLevel ≠ 0 := by
      intro hzero
      rw [hlevel hzero] at howner
      cases howner
    have hpos : s.nestingLevel.toNat ≠ 0 := fun heq => hzero (UInt32.toNat_inj.mp heq)
    rw [h]
    simp only [held, howner, if_true, toNat_sub_one hzero, Queue.unit, Option.some.injEq, beq_iff_eq]
    split_ifs <;> omega
  | released howner hone _ h =>
    rw [h]
    simp only [held, howner, hone, if_true, Queue.unit, Option.some.injEq, beq_iff_eq, reduceCtorEq, if_false,
      UInt32.toNat_one]
    omega
  | transferred op next howner hone hhead hnext hgrants _ =>
    have hcount := waitersOf_lt hwraps howner hone hhead hnext
    have hne : next ≠ ctl := by
      rintro rfl
      exact hs.others op (List.mem_of_mem_head? hhead) (hnext.trans howner.symm)
    have howner' : (s.post ctl).owner = some next := hgrants.owner
    have hnotified : (s.post ctl).queue.notified (· == c) =
        s.queue.notified (· == c) + s.waitersOf next * Queue.unit (· == c) next := hgrants.notified _
    simp only [held, howner', howner, hone, hnotified, hgrants.toNat_level hcount, if_true, Queue.unit,
      Option.some.injEq, beq_iff_eq, UInt32.toNat_one]
    by_cases hc : next = c
    · subst hc
      simp only [if_true, if_neg (Ne.symm hne)]
      omega
    · simp only [if_neg hc]
      omega

/-- Every acquisition of a controller was notified, and every post took one back. -/
structure Mutex.Balanced (w : Waits κ ω (Mutex κ ω)) : Prop where
  inv : w.object.Inv
  level : w.object.nestingLevel = 0 → w.object.owner = none
  total : ∀ c, w.object.held c + w.posts.count c = w.accounted object (· == c)

theorem Mutex.balanced_step {w w' : Waits κ ω (Mutex κ ω)}
    (h : object.waitStep w a = some w') (hw : Balanced w) (hwraps : ¬WaitAct.Wraps Wraps w a) : Balanced w' := by
  obtain ⟨hinv, hlevel⟩ : w'.object.Inv ∧ (w'.object.nestingLevel = 0 → w'.object.owner = none) := by
    refine SynchronisationObject.waitStep_object
      (I := fun s : Mutex κ ω => s.Inv ∧ (s.nestingLevel = 0 → s.owner = none)) ?_ h ⟨hw.inv, hw.level⟩ hwraps
    intro s a s' hs hinv hwraps
    exact ⟨inv_step hs hinv.1, level_step hs hinv.1 hinv.2 hwraps⟩
  refine ⟨hinv, hlevel, ?_⟩
  intro c
  have htotal := hw.total c
  obtain ⟨ctl, op, s, rfl, hs, rfl⟩ | ⟨op, rfl, rfl⟩ | ⟨ctl, op, s, rfl, hs, rfl⟩ | ⟨ctl, op, s, rfl, hs, rfl⟩ |
    ⟨ctl, s, rfl, hs, rfl⟩ := SynchronisationObject.waitStep_cases h
  · obtain ⟨-, rfl⟩ := SynchronisationObject.step_waitAsync hs
    have hheld := held_waitAsync ctl op hwraps c
    simp only [Waits.accounted, object] at htotal ⊢
    omega
  · exact htotal
  · obtain rfl := Option.some.inj hs
    rw [Waits.accounted_cancel]
    exact htotal
  · obtain ⟨hmem, rfl⟩ := SynchronisationObject.step_take hs
    rw [Waits.accounted_succeed _ _ hmem]
    exact htotal
  · obtain rfl := Option.some.inj hs
    have hheld := held_post hw.inv hw.level ctl hwraps c
    simp only [Waits.accounted, object, decide_eq_true_eq] at htotal ⊢
    by_cases howner : w.object.owner = some ctl
    · rw [if_pos howner, Queue.unit] at hheld
      rw [if_pos howner, List.count_cons]
      omega
    · rw [if_neg howner] at hheld ⊢
      omega

/-! ### No net effect -/

theorem SynchronisationObject.dropped_step {w w' : Waits κ ω σ}
    (h : obj.waitStep w a = some w') (hdrops : ¬obj.Drops w a) : w'.dropped = w.dropped := by
  obtain ⟨ctl, op, s, rfl, -, rfl⟩ | ⟨op, rfl, rfl⟩ | ⟨ctl, op, s, rfl, -, rfl⟩ | ⟨ctl, op, s, rfl, -, rfl⟩ |
    ⟨ctl, s, rfl, -, rfl⟩ := waitStep_cases h
  · rfl
  · rfl
  · exact if_neg hdrops
  · rfl
  · rfl

theorem Semaphore.balanced_new (initialValue : UInt32) :
    Balanced initialValue (Waits.new (new initialValue) : Waits κ ω (Semaphore κ ω)) :=
  ⟨inv_new initialValue, rfl⟩

theorem Mutex.balanced_new : Balanced (Waits.new new : Waits κ ω (Mutex κ ω)) :=
  ⟨inv_new, fun _ => rfl, fun _ => rfl⟩

/-- **A wait that returns false has no net effect**, unless its operation was notified between the timeout and the
cancel. The token of a semaphore is lost then; a mutex stays with the controller, as one more acquisition. -/
theorem timed_out_wait_has_no_effect :
    (∀ (initialValue : UInt32) (acts : List (WaitAct κ ω)) (w : Waits κ ω (Semaphore κ ω)),
      final Semaphore.object.waitStep (Waits.new (Semaphore.new initialValue)) acts = some w →
      (∀ t ∈ trace Semaphore.object.waitStep (Waits.new (Semaphore.new initialValue)) acts,
        ¬WaitAct.Wraps Semaphore.Wraps t.pre t.act) →
      initialValue.toNat + w.posts.length =
          w.object.value.toNat + w.returned.length + w.object.queue.completed.length + w.dropped.length ∧
        ((∀ t ∈ trace Semaphore.object.waitStep (Waits.new (Semaphore.new initialValue)) acts,
          ¬Semaphore.object.Drops t.pre t.act) → w.dropped = [])) ∧
    ∀ (acts : List (WaitAct κ ω)) (w : Waits κ ω (Mutex κ ω)),
      final Mutex.object.waitStep (Waits.new Mutex.new) acts = some w →
      (∀ t ∈ trace Mutex.object.waitStep (Waits.new Mutex.new) acts, ¬WaitAct.Wraps Mutex.Wraps t.pre t.act) →
      ∀ c, w.object.owner = some c →
        w.object.nestingLevel.toNat + w.posts.count c =
          w.returned.count c + w.object.queue.notified (· == c) + w.dropped.count c := by
  refine ⟨?_, ?_⟩
  · intro initialValue acts w hfinal hacts
    have hbalanced : Semaphore.Balanced initialValue w :=
      of_final_where (C := fun w a => ¬WaitAct.Wraps Semaphore.Wraps w a) Semaphore.balanced_step
        (Semaphore.balanced_new initialValue) hacts hfinal
    have htotal := hbalanced.total
    have hnotified : w.object.queue.notified everyone = w.object.queue.completed.length :=
      congrFun List.countP_true _
    simp only [Waits.accounted, Semaphore.object, hnotified, countP_everyone] at htotal
    refine ⟨by omega, fun hdrops => ?_⟩
    refine of_final_where (I := fun w => w.dropped = []) (C := fun w a => ¬Semaphore.object.Drops w a) ?_ rfl hdrops hfinal
    intro w a w' h hw hC
    exact (SynchronisationObject.dropped_step h hC).trans hw
  · intro acts w hfinal hacts c howner
    have hbalanced : Mutex.Balanced w := of_final_where (C := fun w a => ¬WaitAct.Wraps Mutex.Wraps w a)
      Mutex.balanced_step Mutex.balanced_new hacts hfinal
    have htotal := hbalanced.total c
    rwa [Mutex.held, if_pos howner] at htotal

/-- At the semaphore a wait times out and another one succeeds; the mutex is granted to a wait that has timed out. -/
theorem timed_out_wait_has_no_effect_runs :
    let acts : List (WaitAct Nat Nat) := [.start 1 1, .timeout 1, .cancel 1 1, .start 2 2, .post 3, .succeed 2 2]
    let acts' : List (WaitAct Nat Nat) := [.start 2 2, .succeed 2 2, .start 1 1, .timeout 1, .post 2, .cancel 1 1]
    (∃ w, final Semaphore.object.waitStep (Waits.new (Semaphore.new 0)) acts = some w ∧ w.returned = [2] ∧
      (0 : UInt32).toNat + w.posts.length =
          w.object.value.toNat + w.returned.length + w.object.queue.completed.length + w.dropped.length ∧
        w.dropped = []) ∧
    ∃ w, final Mutex.object.waitStep (Waits.new Mutex.new) acts' = some w ∧ w.dropped = [1] ∧
      w.object.nestingLevel.toNat + w.posts.count 1 =
        w.returned.count 1 + w.object.queue.notified (· == 1) + w.dropped.count 1 := by
  intro acts acts'
  have hboth := timed_out_wait_has_no_effect (κ := Nat) (ω := Nat)
  obtain ⟨w, hw⟩ : ∃ w, final Semaphore.object.waitStep (Waits.new (Semaphore.new 0)) acts = some w := ⟨_, rfl⟩
  obtain ⟨w', hw'⟩ : ∃ w, final Mutex.object.waitStep (Waits.new Mutex.new) acts' = some w := ⟨_, rfl⟩
  have hreturned : w.returned = [2] := by
    obtain rfl := Option.some.inj hw
    rfl
  have hdropped : w'.dropped = [1] ∧ w'.object.owner = some 1 := by
    obtain rfl := Option.some.inj hw'
    exact ⟨rfl, rfl⟩
  have htokens := hboth.1 0 acts w hw ?_
  · refine ⟨⟨w, hw, hreturned, htokens.1, htokens.2 ?_⟩, ⟨w', hw', hdropped.1, hboth.2 acts' w' hw' ?_ 1 hdropped.2⟩⟩
    · refine List.forall_mem_cons.mpr ⟨id, List.forall_mem_cons.mpr ⟨id, ?_⟩⟩
      refine List.forall_mem_cons.mpr ⟨List.not_mem_nil, List.forall_mem_cons.mpr ⟨id, ?_⟩⟩
      exact List.forall_mem_cons.mpr ⟨id, List.forall_mem_cons.mpr ⟨id, List.forall_mem_nil _⟩⟩
    · refine List.forall_mem_cons.mpr ⟨?_, List.forall_mem_cons.mpr ⟨id, List.forall_mem_cons.mpr ⟨?_, ?_⟩⟩⟩
      · rintro ⟨howner, -⟩
        cases howner
      · rintro ⟨howner, -⟩
        cases howner
      refine List.forall_mem_cons.mpr ⟨id, List.forall_mem_cons.mpr ⟨?_, ?_⟩⟩
      · rintro ⟨-, -, op, next, hhead, hnext, hcount⟩
        cases hhead
        cases hnext
        revert hcount
        decide
      · exact List.forall_mem_cons.mpr ⟨id, List.forall_mem_nil _⟩
  · refine List.forall_mem_cons.mpr ⟨id, List.forall_mem_cons.mpr ⟨id, List.forall_mem_cons.mpr ⟨id, ?_⟩⟩⟩
    refine List.forall_mem_cons.mpr ⟨id, List.forall_mem_cons.mpr ⟨?_, ?_⟩⟩
    · rintro ⟨hwaiters, -⟩
      cases hwaiters
    · exact List.forall_mem_cons.mpr ⟨id, List.forall_mem_nil _⟩

/-! ### Books that do not balance -/

/-- The only controller has acquired the mutex some times; all its waits returned true. -/
def waited (n : Nat) : Waits Unit Unit (Mutex Unit Unit) := ⟨acquired n, [], [], List.replicate n (), []⟩

theorem final_wait (n : Nat) :
    final Mutex.object.waitStep (waited n) [.start () (), .succeed () ()] = some (waited (n + 1)) := by
  simp [final, SynchronisationObject.waitStep, SynchronisationObject.step, Mutex.object, Mutex.waitAsync,
    Queue.Outstanding, Queue.setController, Queue.notify, Queue.take, waited, acquired, List.replicate_succ]

/-- Between a timeout and the cancel, the token of a post is lost, and the mutex stays with a controller whose only
wait returned false. A semaphore loses all its tokens with a post too many, and a mutex forgets 2^32 acquisitions. -/
theorem books_do_not_balance :
    (∃ w, final Semaphore.object.waitStep (Waits.new (Semaphore.new 0) : Waits Nat Nat _)
        [.start 1 1, .timeout 1, .post 2, .cancel 1 1] = some w ∧
      (0 : UInt32).toNat + w.posts.length ≠
        w.object.value.toNat + w.returned.length + w.object.queue.completed.length) ∧
    (∃ w, final Mutex.object.waitStep (Waits.new Mutex.new : Waits Nat Nat _)
        [.start 2 2, .succeed 2 2, .start 1 1, .timeout 1, .post 2, .cancel 1 1] = some w ∧
      w.object.owner = some 1 ∧
      w.object.nestingLevel.toNat + w.posts.count 1 ≠ w.returned.count 1 + w.object.queue.notified (· == 1)) ∧
    (∃ w, final Semaphore.object.waitStep (Waits.new (Semaphore.new 0xFFFFFFFF) : Waits Nat Nat _) [.post 1] = some w ∧
      (0xFFFFFFFF : UInt32).toNat + w.posts.length ≠
        w.object.value.toNat + w.returned.length + w.object.queue.completed.length) ∧
    ∃ w, final Mutex.object.waitStep (Waits.new Mutex.new)
        (List.replicate (2 ^ 32) [.start () (), .succeed () ()]).flatten = some w ∧
      w.object.owner = some () ∧
      w.object.nestingLevel.toNat + w.posts.count () ≠ w.returned.count () + w.object.queue.notified (· == ()) := by
  obtain ⟨k, hk⟩ : ∃ k, 2 ^ 32 = 1 + k := ⟨2 ^ 32 - 1, by decide⟩
  have hfirst : final Mutex.object.waitStep (Waits.new Mutex.new) [.start () (), .succeed () ()] = some (waited 1) := by
    simp [final, SynchronisationObject.waitStep, SynchronisationObject.step, Mutex.object, Mutex.waitAsync, Mutex.new,
      Waits.new, Queue.Outstanding, Queue.setController, Queue.notify, Queue.take, waited, acquired]
    exact ⟨funext fun _ => rfl, funext fun _ => rfl⟩
  refine ⟨⟨_, rfl, ?_⟩, ⟨_, rfl, rfl, ?_⟩, ⟨_, rfl, ?_⟩, waited (1 + k), ?_, rfl, ?_⟩
  · decide
  · decide
  · decide
  · rw [hk, Nat.add_comm, List.replicate_succ, List.flatten_cons, final_append, hfirst, Option.bind_some,
      final_replicate final_wait, Nat.add_comm]
  · have hlevel : (acquired (1 + k)).nestingLevel.toNat = 0 := by
      rw [← hk]
      decide
    have hreturned : (waited (1 + k)).returned.count () = 1 + k := List.count_replicate_self
    rw [hreturned]
    show (acquired (1 + k)).nestingLevel.toNat + 0 ≠ 1 + k + 0
    omega

end Afl.Async
