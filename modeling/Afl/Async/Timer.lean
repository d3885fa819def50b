import Mathlib.Data.UInt
import Afl.Async.Operation

/-!
# The timer

`afl/async/timer.cpp`. The manager thread samples the tick counter and then updates the timer with the sample; `start`
samples it on its own. Ticks are 32-bit numbers that wrap around. The world has the real ticks.
-/

set_option linter.unusedSectionVars false

namespace Afl.Async

open Run

variable {κ ω : Type} [DecidableEq κ] [DecidableEq ω]

def infiniteTimeout : UInt32 := -1

/-- `afl::sys::Time::getTickCounter()` at a real time. -/
def getTickCounter (now : Nat) : UInt32 := UInt32.ofNat now

theorem toNat_getTickCounter_sub {s l : Nat} (h : l ≤ s) :
    (getTickCounter s - getTickCounter l).toNat = (s - l) % 2 ^ 32 := by
  rw [getTickCounter, getTickCounter, UInt32.toNat_sub, UInt32.toNat_ofNat', UInt32.toNat_ofNat']
  omega

/-- A timer with the operations it knows of. -/
structure Timer (κ ω : Type) where
  queue : Queue κ ω
  m_numSignals : UInt32
  m_interval : UInt32
  m_active : Bool
  m_cyclic : Bool
  m_lastCheck : UInt32
  /-- How often the timer has fired since it was started. The code does not keep this number. -/
  firings : Nat

namespace Timer

def new : Timer κ ω := ⟨⟨fun _ => none, [], [], fun _ => 0⟩, 0, 0, false, false, 0, 0⟩

/-- `start`; `tick` is what `getTickCounter()` returns. -/
def start (tick interval : UInt32) (cyclic : Bool) (t : Timer κ ω) : Timer κ ω :=
  { t with m_interval := interval, m_active := true, m_cyclic := cyclic, m_lastCheck := tick, firings := 0 }

def stop (t : Timer κ ω) : Timer κ ω :=
  { t with m_interval := 0, m_active := false, m_cyclic := false, m_numSignals := 0 }

def waitAsync (ctl : κ) (op : ω) (t : Timer κ ω) : Timer κ ω :=
  if t.m_numSignals = 0 then { t with queue := (t.queue.setController ctl op).pushBack op }
  else { t with queue := (t.queue.setController ctl op).notify op, m_numSignals := t.m_numSignals - 1 }

/-- "Timer fires": one waiter is notified, or the signal is kept. -/
def fire (t : Timer κ ω) : Timer κ ω :=
  match t.queue.waiters with
  | op :: waiters => { t with queue := Queue.notify { t.queue with waiters := waiters } op, firings := t.firings + 1 }
  | [] => { t with m_numSignals := t.m_numSignals + 1, firings := t.firings + 1 }

/-- "Compute next firing time". -/
def schedule (now elapsed : UInt32) (t : Timer κ ω) : UInt32 × Timer κ ω :=
  if elapsed ≥ t.m_interval then (1, { t with m_lastCheck := now - t.m_interval + 1 })
  else (t.m_interval - elapsed, t)

/-- `update`: the time to the next firing, and the new state. -/
def update (now : UInt32) (t : Timer κ ω) : UInt32 × Timer κ ω :=
  if !t.m_active then (infiniteTimeout, t)
  else
    let elapsed := now - t.m_lastCheck
    if elapsed ≥ t.m_interval then
      schedule now (elapsed - t.m_interval)
        { t.fire with m_active := t.m_cyclic, m_lastCheck := t.m_lastCheck + t.m_interval }
    else schedule now elapsed t

/-! ### Threads -/

/-- A timer, the clock and the manager thread, with the last start. -/
structure World (κ ω : Type) where
  timer : Timer κ ω
  /-- The ticks that have passed. -/
  now : Nat
  /-- The argument of the manager's next call of `update`, if it has sampled the clock. -/
  sample : Option Nat
  /-- When the timer was last started, and how. -/
  started : Nat
  interval : UInt32
  cyclic : Bool

/-- What happens next. -/
inductive Event (κ ω : Type)
  | tick
  | start (interval : UInt32) (cyclic : Bool)
  | stop
  | waitAsync (ctl : κ) (op : ω)
  | cancel (ctl : κ) (op : ω)
  | take (ctl : κ) (op : ω)
  | sample
  | update

def World.new : World κ ω := ⟨.new, 0, none, 0, 0, false⟩

def World.step (w : World κ ω) : Event κ ω → Option (World κ ω)
  | .tick => some { w with now := w.now + 1 }
  | .start interval cyclic =>
    some { w with
      timer := w.timer.start (getTickCounter w.now) interval cyclic
      started := w.now
      interval := interval
      cyclic := cyclic }
  | .stop => some { w with timer := w.timer.stop }
  | .waitAsync ctl op =>
    if w.timer.queue.Outstanding op then none else some { w with timer := w.timer.waitAsync ctl op }
  | .cancel ctl op => some { w with timer := { w.timer with queue := w.timer.queue.cancel ctl op } }
  | .take ctl op =>
    if (ctl, op) ∈ w.timer.queue.completed then
      some { w with timer := { w.timer with queue := w.timer.queue.take ctl op } }
    else none
  | .sample => if w.sample = none then some { w with sample := some w.now } else none
  | .update =>
    match w.sample with
    | none => none
    | some s => some { w with timer := (w.timer.update (getTickCounter s)).2, sample := none }

/-- The timer does not fire too early or too often. -/
structure Punctual (t : Taken (World κ ω) (Event κ ω)) : Prop where
  once : t.post.timer.firings ≤ t.pre.timer.firings + 1
  late : t.pre.timer.firings < t.post.timer.firings →
    t.post.started + t.post.timer.firings * t.post.interval.toNat ≤ t.post.now
  single : t.post.cyclic = false → t.post.timer.firings ≤ 1

/-- The manager's sample is older than the last start, and its difference to the time of the start wraps around to an
interval or more. -/
def Wraps (w : World κ ω) : Event κ ω → Prop
  | .update => ∃ s ∈ w.sample, s < w.started ∧ w.timer.m_active = true ∧ 0 < w.timer.m_interval.toNat ∧
      w.timer.m_interval ≤ getTickCounter s - w.timer.m_lastCheck
  | _ => False

/-! ### One call -/

theorem waitAsync_eq (ctl : κ) (op : ω) (t : Timer κ ω) :
    ∃ queue numSignals, t.waitAsync ctl op = { t with queue := queue, m_numSignals := numSignals } := by
  rw [waitAsync]
  split_ifs
  · exact ⟨_, _, rfl⟩
  · exact ⟨_, _, rfl⟩

@[simp] theorem fire_m_interval (t : Timer κ ω) : t.fire.m_interval = t.m_interval := by
  rw [fire]
  rcases t.queue.waiters with _ | ⟨op, waiters⟩ <;> rfl

@[simp] theorem fire_m_cyclic (t : Timer κ ω) : t.fire.m_cyclic = t.m_cyclic := by
  rw [fire]
  rcases t.queue.waiters with _ | ⟨op, waiters⟩ <;> rfl

@[simp] theorem fire_firings (t : Timer κ ω) : t.fire.firings = t.firings + 1 := by
  rw [fire]
  rcases t.queue.waiters with _ | ⟨op, waiters⟩ <;> rfl

def fired (lastCheck : UInt32) (t : Timer κ ω) : Timer κ ω :=
  { t.fire with m_active := t.m_cyclic, m_lastCheck := lastCheck }

theorem update_cases (now : UInt32) (t : Timer κ ω) :
    (update now t).2 = t ∨
      (t.m_active = true ∧ t.m_interval ≤ now - t.m_lastCheck ∧
        (update now t).2 = t.fired (t.m_lastCheck + t.m_interval)) ∨
      (t.m_active = true ∧ t.m_interval ≤ now - t.m_lastCheck ∧ t.m_interval ≤ now - t.m_lastCheck - t.m_interval ∧
        (update now t).2 = t.fired (now - t.m_interval + 1)) := by
  rw [update]
  rcases hactive : t.m_active with _ | _
  · exact .inl rfl
  rw [if_neg (by decide)]
  dsimp only
  by_cases hdue : now - t.m_lastCheck ≥ t.m_interval
  · rw [if_pos hdue, schedule]
    simp only [fired, fire_m_interval]
    by_cases hagain : now - t.m_lastCheck - t.m_interval ≥ t.m_interval
    · rw [if_pos hagain]
      exact .inr (.inr ⟨trivial, hdue, hagain, rfl⟩)
    · rw [if_neg hagain]
      exact .inr (.inl ⟨trivial, hdue, rfl⟩)
  · rw [if_neg hdue, schedule, if_neg hdue]
    exact .inl rfl

/-! ### Ticks -/

theorem getTickCounter_add (l : Nat) (interval : UInt32) :
    getTickCounter (l + interval.toNat) = getTickCounter l + interval := by
  apply UInt32.toNat_inj.1
  rw [getTickCounter, getTickCounter, UInt32.toNat_add, UInt32.toNat_ofNat', UInt32.toNat_ofNat']
  omega

theorem getTickCounter_throttle {s : Nat} {interval : UInt32} (h : interval.toNat ≤ s) :
    getTickCounter (s - interval.toNat + 1) = getTickCounter s - interval + 1 := by
  have hlt := interval.toNat_lt
  apply UInt32.toNat_inj.1
  rw [getTickCounter, getTickCounter, UInt32.toNat_add, UInt32.toNat_sub, UInt32.toNat_ofNat', UInt32.toNat_ofNat']
  have hone : UInt32.toNat 1 = 1 := rfl
  rw [hone]
  omega

theorem interval_le {s l : Nat} {interval : UInt32} (h : l ≤ s)
    (hdue : interval ≤ getTickCounter s - getTickCounter l) : l + interval.toNat ≤ s := by
  have hle := UInt32.le_iff_toNat_le.1 hdue
  rw [toNat_getTickCounter_sub h] at hle
  omega

theorem two_intervals_le {s l : Nat} {interval : UInt32} (h : l ≤ s)
    (hdue : interval ≤ getTickCounter s - getTickCounter l)
    (hagain : interval ≤ getTickCounter s - getTickCounter l - interval) : l + 2 * interval.toNat ≤ s := by
  have hle := UInt32.le_iff_toNat_le.1 hagain
  rw [UInt32.toNat_sub_of_le _ _ hdue, toNat_getTickCounter_sub h] at hle
  have hfirst := interval_le h hdue
  omega

/-! ### Runs -/

/-- A time that `m_lastCheck` stands for. All firings up to now were due by then, and the manager's sample is not older
unless it is older than the start. -/
def Reference (w : World κ ω) (l : Nat) : Prop :=
  getTickCounter l = w.timer.m_lastCheck ∧ w.started + w.timer.firings * w.interval.toNat ≤ l ∧ l ≤ w.now ∧
    ∀ s ∈ w.sample, w.started ≤ s → l ≤ s

structure Inv (w : World κ ω) : Prop where
  sample : ∀ s ∈ w.sample, s ≤ w.now
  started : w.started ≤ w.now
  config : w.timer.m_active = true → w.timer.m_interval = w.interval ∧ w.timer.m_cyclic = w.cyclic
  single : w.cyclic = false → w.timer.firings ≤ 1 ∧ (w.timer.m_active = true → w.timer.firings = 0)
  reference : w.timer.m_active = true → 0 < w.interval.toNat → ∃ l, Reference w l

theorem inv_new : Inv (World.new : World κ ω) := by
  refine ⟨nofun, le_rfl, nofun, fun _ => ⟨Nat.zero_le 1, nofun⟩, nofun⟩

theorem Inv.operations {w : World κ ω} (h : Inv w) (queue : Queue κ ω) (numSignals : UInt32) :
    Inv { w with timer := { w.timer with queue := queue, m_numSignals := numSignals } } :=
  ⟨h.sample, h.started, h.config, h.single, h.reference⟩

theorem punctual_of_firings {w w' : World κ ω} {e : Event κ ω} (hinv : Inv w') (h : w'.timer.firings ≤ w.timer.firings) :
    Punctual ⟨w, e, w'⟩ := by
  refine ⟨Nat.le_succ_of_le h, fun hlt => ?_, fun hsingle => (hinv.single hsingle).1⟩
  exact absurd h (Nat.not_le_of_lt hlt)

theorem Inv.fired {w : World κ ω} (h : Inv w) {lastCheck : UInt32} (hactive : w.timer.m_active = true)
    (hreference : 0 < w.interval.toNat → ∃ m, getTickCounter m = lastCheck ∧
      w.started + (w.timer.firings + 1) * w.interval.toNat ≤ m ∧ m ≤ w.now) :
    Inv { w with timer := w.timer.fired lastCheck, sample := none } ∧
      Punctual ⟨w, .update, { w with timer := w.timer.fired lastCheck, sample := none }⟩ := by
  have hconfig := h.config hactive
  have hfirings : (w.timer.fired lastCheck).firings = w.timer.firings + 1 := fire_firings w.timer
  have hsingle : w.cyclic = false → w.timer.firings + 1 ≤ 1 := by
    intro hcyclic
    rw [(h.single hcyclic).2 hactive]
  refine ⟨⟨nofun, h.started, fun _ => ?_, fun hcyclic => ⟨?_, fun hactive' => ?_⟩, fun _ hpos => ?_⟩, ?_, fun _ => ?_,
    fun hcyclic => ?_⟩
  · exact ⟨(fire_m_interval w.timer).trans hconfig.1, (fire_m_cyclic w.timer).trans hconfig.2⟩
  · exact hfirings.trans_le (hsingle hcyclic)
  · have hfalse : w.timer.m_cyclic = false := hconfig.2.trans hcyclic
    exact absurd (hactive'.symm.trans hfalse) (by decide)
  · obtain ⟨m, hm, hdue, hnow⟩ := hreference hpos
    refine ⟨m, hm, ?_, hnow, nofun⟩
    show w.started + (w.timer.fired lastCheck).firings * _ ≤ m
    rw [hfirings]
    exact hdue
  · exact hfirings.le
  · show w.started + (w.timer.fired lastCheck).firings * w.interval.toNat ≤ w.now
    rw [hfirings]
    rcases Nat.eq_zero_or_pos w.interval.toNat with hzero | hpos
    · rw [hzero, Nat.mul_zero]
      exact h.started
    · obtain ⟨m, -, hdue, hnow⟩ := hreference hpos
      exact hdue.trans hnow
  · exact hfirings.trans_le (hsingle hcyclic)

theorem Inv.update {w : World κ ω} (h : Inv w) {s : Nat} (hs : w.sample = some s) (hwraps : ¬Wraps w .update) :
    Inv { w with timer := (w.timer.update (getTickCounter s)).2, sample := none } ∧
      Punctual ⟨w, .update, { w with timer := (w.timer.update (getTickCounter s)).2, sample := none }⟩ := by
  have hsnow := h.sample s hs
  have hstart : w.timer.m_active = true → 0 < w.interval.toNat →
      w.timer.m_interval ≤ getTickCounter s - w.timer.m_lastCheck → w.started ≤ s := by
    intro hactive hpos hdue
    by_contra hlt
    rw [← (h.config hactive).1] at hpos
    exact hwraps ⟨s, hs, by omega, hactive, hpos, hdue⟩
  obtain hsame | ⟨hactive, hdue, hsame⟩ | ⟨hactive, hdue, hagain, hsame⟩ := update_cases (getTickCounter s) w.timer
  · rw [hsame]
    have hinv : Inv { w with sample := none } := by
      refine ⟨nofun, h.started, h.config, h.single, fun hactive hpos => ?_⟩
      obtain ⟨l, hl, hdue, hnow, -⟩ := h.reference hactive hpos
      exact ⟨l, hl, hdue, hnow, nofun⟩
    exact ⟨hinv, punctual_of_firings hinv le_rfl⟩
  · rw [hsame]
    refine h.fired hactive fun hpos => ?_
    obtain ⟨l, hl, hfired, hnow, hsample⟩ := h.reference hactive hpos
    have hls := hsample s hs (hstart hactive hpos hdue)
    rw [(h.config hactive).1, ← hl] at hdue ⊢
    have hpassed := interval_le hls hdue
    refine ⟨l + w.interval.toNat, getTickCounter_add l w.interval, ?_, by omega⟩
    rw [Nat.add_mul, Nat.one_mul]
    omega
  · rw [hsame]
    refine h.fired hactive fun hpos => ?_
    obtain ⟨l, hl, hfired, hnow, hsample⟩ := h.reference hactive hpos
    have hls := hsample s hs (hstart hactive hpos hdue)
    rw [(h.config hactive).1, ← hl] at hdue hagain
    rw [(h.config hactive).1]
    have hpassed := two_intervals_le hls hdue hagain
    refine ⟨s - w.interval.toNat + 1, getTickCounter_throttle (by omega), ?_, by omega⟩
    rw [Nat.add_mul, Nat.one_mul]
    omega

theorem Inv.step {w w' : World κ ω} {e : Event κ ω} (hstep : w.step e = some w') (h : Inv w) (hwraps : ¬Wraps w e) :
    Inv w' ∧ Punctual ⟨w, e, w'⟩ := by
  have hof : Inv w' → w'.timer.firings ≤ w.timer.firings → Inv w' ∧ Punctual ⟨w, e, w'⟩ :=
    fun hinv hle => ⟨hinv, punctual_of_firings hinv hle⟩
  cases e with
  | tick =>
    cases hstep
    refine hof ⟨fun s hs => Nat.le_succ_of_le (h.sample s hs), Nat.le_succ_of_le h.started, h.config, h.single, ?_⟩ le_rfl
    intro hactive hpos
    obtain ⟨l, hl, hdue, hnow, hsample⟩ := h.reference hactive hpos
    exact ⟨l, hl, hdue, Nat.le_succ_of_le hnow, hsample⟩
  | start interval cyclic =>
    cases hstep
    refine hof ⟨h.sample, le_rfl, fun _ => ⟨rfl, rfl⟩, fun _ => ⟨Nat.zero_le 1, fun _ => rfl⟩, fun _ _ => ?_⟩ (Nat.zero_le _)
    refine ⟨w.now, rfl, ?_, le_rfl, fun s _ hle => hle⟩
    show w.now + 0 * _ ≤ w.now
    rw [Nat.zero_mul]
    exact le_rfl
  | stop =>
    cases hstep
    exact hof ⟨h.sample, h.started, nofun, fun hcyclic => ⟨(h.single hcyclic).1, nofun⟩, nofun⟩ le_rfl
  | waitAsync ctl op =>
    rw [World.step] at hstep
    split_ifs at hstep with hout
    cases hstep
    obtain ⟨queue, numSignals, hwait⟩ := waitAsync_eq ctl op w.timer
    rw [hwait] at hof ⊢
    exact hof (h.operations queue numSignals) le_rfl
  | cancel ctl op =>
    cases hstep
    exact hof (h.operations _ _) le_rfl
  | take ctl op =>
    rw [World.step] at hstep
    split_ifs at hstep with hmem
    cases hstep
    exact hof (h.operations _ _) le_rfl
  | sample =>
    rw [World.step] at hstep
    split_ifs at hstep with hnone
    cases hstep
    refine hof ⟨?_, h.started, h.config, h.single, fun hactive hpos => ?_⟩ le_rfl
    · intro s hs
      rw [← Option.some.inj hs]
    · obtain ⟨l, hl, hdue, hnow, -⟩ := h.reference hactive hpos
      refine ⟨l, hl, hdue, hnow, fun s hs _ => ?_⟩
      rw [← Option.some.inj hs]
      exact hnow
  | update =>
    rw [World.step] at hstep
    rcases hs : w.sample with _ | s
    · rw [hs] at hstep
      cases hstep
    · rw [hs] at hstep
      cases hstep
      exact h.update hs hwraps

/-- **Timers do not fire early**, in every run in which no update finds a difference that wraps around. -/
theorem punctual_of_not_wraps (events : List (Event κ ω))
    (h : ∀ t ∈ trace World.step (World.new : World κ ω) events, ¬Wraps t.pre t.act) :
    ∀ t ∈ trace World.step (World.new : World κ ω) events, Punctual t :=
  forall_taken_where (C := fun w e => ¬Wraps w e) Inv.step inv_new events h

/-- A timer that fires, and is started again and stopped between a sample and its update. -/
theorem punctual_of_not_wraps_restart :
    let run := trace World.step (World.new : World Nat Nat)
      [.start 1 true, .tick, .sample, .update, .sample, .tick, .start 5 false, .stop, .update]
    run.length = 9 ∧ (∃ t ∈ run, t.pre.timer.firings < t.post.timer.firings) ∧ ∀ t ∈ run, Punctual t := by
  refine ⟨rfl, by decide, ?_⟩
  apply punctual_of_not_wraps
  simp only [trace, World.step, World.new, if_true, List.forall_mem_cons, Wraps]
  refine ⟨id, id, id, ?_, id, id, id, id, ?_, List.forall_mem_nil _⟩
  · rintro ⟨s, hs, hlt, -⟩
    exact absurd hlt (Nat.not_lt_zero s)
  · rintro ⟨s, -, -, hactive, -⟩
    exact absurd hactive (by decide)

/-- The manager samples the tick counter, the timer is started one tick later, and the update fires at once. -/
theorem fires_at_once :
    ¬∀ t ∈ trace World.step (World.new : World Nat Nat) [.sample, .tick, .start 1000 false, .update], Punctual t := by
  intro h
  simp only [trace, World.step, World.new, if_true, List.forall_mem_cons] at h
  exact absurd (h.2.2.2.1.late (by decide)) (by decide)

end Timer

end Afl.Async
