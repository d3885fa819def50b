import Afl.Async.Mutex

/-!
# The semaphore

`afl/async/semaphore.cpp`. The value is a 32-bit counter that is bumped when nobody waits.
-/

set_option linter.unusedSectionVars false

namespace Afl.Async

variable {κ ω : Type} [DecidableEq κ] [DecidableEq ω]

/-- A semaphore with the operations it knows of. -/
structure Semaphore (κ ω : Type) where
  queue : Queue κ ω
  value : UInt32

namespace Semaphore

def new (initialValue : UInt32) : Semaphore κ ω := ⟨⟨fun _ => none, [], [], fun _ => 0⟩, initialValue⟩

def post (s : Semaphore κ ω) : Semaphore κ ω :=
  match s.queue.waiters with
  | op :: waiters => { s with queue := Queue.notify { s.queue with waiters := waiters } op }
  | [] => { s with value := s.value + 1 }

def waitAsync (ctl : κ) (op : ω) (s : Semaphore κ ω) : Semaphore κ ω :=
  if s.value = 0 then { s with queue := (s.queue.setController ctl op).pushBack op }
  else { queue := (s.queue.setController ctl op).notify op, value := s.value - 1 }

def object : SynchronisationObject κ ω (Semaphore κ ω) where
  queue := queue
  setQueue := fun s q => { s with queue := q }
  queue_setQueue := fun _ _ => rfl
  waitAsync := waitAsync
  post := fun _ s => s.post
  takesEffect := fun _ _ => true

/-- Nobody waits for a value that is there. -/
structure Inv (s : Semaphore κ ω) : Prop where
  orderly : s.queue.Orderly
  value : s.value ≠ 0 → s.queue.waiters = []

theorem inv_new (initialValue : UInt32) : Inv (new initialValue : Semaphore κ ω) where
  orderly := ⟨List.nodup_nil, fun _ => Nat.zero_le 1, fun _ _ => rfl, fun _ h => by cases h⟩
  value := fun _ => rfl

theorem post_cases (s : Semaphore κ ω) :
    (∃ op waiters, s.queue.waiters = op :: waiters ∧ s.post = { s with queue := s.queue.grant op }) ∨
      (s.queue.waiters = [] ∧ s.post = { s with value := s.value + 1 }) := by
  rw [post]
  rcases h : s.queue.waiters with _ | ⟨op, waiters⟩
  · exact .inr ⟨rfl, rfl⟩
  · refine .inl ⟨op, waiters, rfl, ?_⟩
    rw [Queue.grant, h, List.erase_cons_head]

theorem Inv.waitAsync {s : Semaphore κ ω} (hs : s.Inv) {op : ω} (hop : op ∉ s.queue.waiters) (ctl : κ) :
    (s.waitAsync ctl op).Inv := by
  rw [Semaphore.waitAsync]
  split_ifs with hvalue
  · refine ⟨hs.orderly.submit_pushBack hop ctl, ?_⟩
    intro hne
    exact absurd hvalue hne
  · refine ⟨hs.orderly.submit_notify hop ctl, ?_⟩
    intro _
    rw [Queue.waiters_notify]
    exact hs.value hvalue

theorem Inv.post {s : Semaphore κ ω} (hs : s.Inv) : s.post.Inv := by
  rcases post_cases s with ⟨op, waiters, hwaiters, hpost⟩ | ⟨hwaiters, hpost⟩
  · rw [hpost]
    refine ⟨hs.orderly.grant (by rw [hwaiters]; exact List.mem_cons_self), ?_⟩
    intro hvalue
    rw [hs.value hvalue] at hwaiters
    cases hwaiters
  · rw [hpost]
    exact ⟨hs.orderly, fun _ => hwaiters⟩

theorem inv_step {s s' : Semaphore κ ω} {a : Act κ ω} (h : object.step s a = some s') (hs : s.Inv) : s'.Inv := by
  obtain ⟨ctl, op, -, hout, rfl⟩ | ⟨ctl, -, rfl⟩ | ⟨ctl, op, -, rfl⟩ | ⟨ctl, op, -, -, rfl⟩ :=
    SynchronisationObject.step_cases h
  · exact hs.waitAsync (fun hop => hout (.inl hop)) ctl
  · exact hs.post
  · refine ⟨hs.orderly.cancel ctl op, ?_⟩
    intro hvalue
    exact List.eq_nil_of_subset_nil fun x hx => hs.value hvalue ▸ List.mem_of_mem_erase hx
  · exact ⟨hs.orderly.take ctl op, hs.value⟩

end Semaphore

/-! ### No waiter is left behind

What holds of a mutex and of a semaphore in every state that the threads can reach, in any order of their calls.
The one thing that does not hold without restriction is that an owned mutex has a nesting level other than 0: the
level is a 32-bit number, and 2^32 nested acquisitions bring it back to 0. -/

open Run

/-- **No waiter could proceed.** A free mutex has level 0 and no waiters, an owned one has a level other than 0
unless that has wrapped around, and no waiter of a mutex belongs to its owner; nobody waits at a semaphore with a
value; nothing waits twice or is notified twice. -/
theorem no_waiter_could_proceed :
    (∀ (acts : List (Act κ ω)) (s : Mutex κ ω), final Mutex.object.step Mutex.new acts = some s →
      (s.owner = none → s.nestingLevel = 0) ∧
      ((∀ t ∈ trace Mutex.object.step Mutex.new acts, ¬t.pre.Wraps t.act) → s.nestingLevel = 0 → s.owner = none) ∧
      (s.owner = none → s.queue.waiters = []) ∧
      (∀ op ∈ s.queue.waiters, s.queue.controller op ≠ s.owner) ∧
      s.queue.waiters.Nodup ∧ ∀ op, s.queue.signals op ≤ 1) ∧
    ∀ (initialValue : UInt32) (acts : List (Act κ ω)) (s : Semaphore κ ω),
      final Semaphore.object.step (Semaphore.new initialValue) acts = some s →
      (0 < s.value → s.queue.waiters = []) ∧ s.queue.waiters.Nodup ∧ ∀ op, s.queue.signals op ≤ 1 := by
  refine ⟨?_, ?_⟩
  · intro acts s hfinal
    have hs : s.Inv := of_final Mutex.inv_step Mutex.inv_new hfinal
    refine ⟨hs.level, ?_, hs.free, hs.others, hs.orderly.nodup, hs.orderly.once⟩
    intro hwraps
    have hboth : s.Inv ∧ (s.nestingLevel = 0 → s.owner = none) := by
      refine of_final_where (I := fun s : Mutex κ ω => s.Inv ∧ (s.nestingLevel = 0 → s.owner = none))
        (C := fun s a => ¬s.Wraps a) ?_ ⟨Mutex.inv_new, fun _ => rfl⟩ hwraps hfinal
      intro s a s' h hs hC
      exact ⟨Mutex.inv_step h hs.1, Mutex.level_step h hs.1 hs.2 hC⟩
    exact hboth.2
  · intro initialValue acts s hfinal
    have hs : s.Inv := of_final Semaphore.inv_step (Semaphore.inv_new initialValue) hfinal
    refine ⟨?_, hs.orderly.nodup, hs.orderly.once⟩
    intro hpos
    exact hs.value (UInt32.pos_iff_ne_zero.mp hpos)

theorem no_waiter_could_proceed_transfer :
    let acts : List (Act Nat Nat) := [.waitAsync 1 1, .take 1 1, .waitAsync 2 2, .post 1]
    ∃ s, final Mutex.object.step Mutex.new acts = some s ∧ s.owner = some 2 ∧
      ∀ op ∈ s.queue.waiters, s.queue.controller op ≠ s.owner := by
  intro acts
  obtain ⟨s, hs⟩ : ∃ s, final Mutex.object.step Mutex.new acts = some s := ⟨_, rfl⟩
  refine ⟨s, hs, ?_, ((no_waiter_could_proceed (κ := Nat) (ω := Nat)).1 acts s hs).2.2.2.1⟩
  obtain rfl := Option.some.inj hs
  rfl

/-! ### A level that wraps around -/

/-- The only controller acquires the mutex 2^32 times, with one operation that it collects each time. -/
def wrappingRun : List (Act Unit Unit) :=
  (List.replicate (2 ^ 32) [.waitAsync () (), .take () ()]).flatten

def acquired (n : Nat) : Mutex Unit Unit := ⟨⟨fun _ => some (), [], [], fun _ => 1⟩, UInt32.ofNat n, some ()⟩

theorem final_acquire (n : Nat) :
    final Mutex.object.step (acquired n) [.waitAsync () (), .take () ()] = some (acquired (n + 1)) := by
  simp [final, SynchronisationObject.step, Mutex.object, Mutex.waitAsync, Queue.Outstanding, Queue.setController,
    Queue.notify, Queue.take, acquired]

/-- After 2^32 acquisitions the mutex is owned and has level 0. -/
theorem level_wraps :
    ∃ s, final Mutex.object.step Mutex.new wrappingRun = some s ∧ ¬(s.owner = none ↔ s.nestingLevel = 0) := by
  obtain ⟨k, hk⟩ : ∃ k, 2 ^ 32 = 1 + k := ⟨2 ^ 32 - 1, by decide⟩
  have hfirst : final Mutex.object.step Mutex.new [.waitAsync () (), .take () ()] = some (acquired 1) := by
    simp [final, SynchronisationObject.step, Mutex.object, Mutex.waitAsync, Mutex.new, Queue.Outstanding,
      Queue.setController, Queue.notify, Queue.take, acquired]
    exact ⟨funext fun _ => rfl, funext fun _ => rfl⟩
  refine ⟨acquired (1 + k), ?_, ?_⟩
  · rw [wrappingRun, hk, Nat.add_comm, List.replicate_succ, List.flatten_cons, final_append, hfirst, Option.bind_some,
      final_replicate final_acquire, Nat.add_comm]
  · rw [← hk]
    have hlevel : (acquired (2 ^ 32)).nestingLevel = 0 := by decide
    intro hiff
    cases hiff.mpr hlevel

end Afl.Async
