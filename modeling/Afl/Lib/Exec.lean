import Mathlib.Logic.Basic

/-!
# Computations that go wrong, throw, or mutate a state

`Exec σ ε` is the monad of imperative code whose state survives an exception: a run gives a result or an error, and the
state it left. `wp` is the weakest precondition of a run, with one rewriting rule for each way to build a computation,
and `ReadOnly` names the computations that leave the state alone.

A computation that may only go wrong is an `Option`; `Returns m Q` says that `m` gives a result that satisfies `Q`.
-/

/-- Imperative code over a state `σ` that may throw an `ε`; the state survives the exception. -/
abbrev Exec (σ ε α : Type) := ExceptT ε (StateM σ) α

namespace Exec

variable {σ ε α β : Type}

/-- Run a computation: its result or exception, and the state it leaves. -/
def exec (m : Exec σ ε α) (s : σ) : Except ε α × σ := m.run.run s

@[simp] theorem exec_pure (a : α) (s : σ) : exec (pure a : Exec σ ε α) s = (.ok a, s) := rfl

@[simp] theorem exec_get (s : σ) : exec (get : Exec σ ε σ) s = (.ok s, s) := rfl

theorem exec_bind (m : Exec σ ε α) (f : α → Exec σ ε β) (s : σ) :
    exec (m >>= f) s =
      match exec m s with
      | (.ok a, s') => exec (f a) s'
      | (.error e, s') => (.error e, s') := by
  show (ExceptT.bindCont f (m.run.run s).1 : StateM σ (Except ε β)).run (m.run.run s).2 = _
  rcases h : m.run.run s with ⟨r, s'⟩
  cases r with
  | ok a => simp only [exec, h]; rfl
  | error e => simp only [exec, h]; rfl

variable {m : Exec σ ε α}

theorem exec_bind_ok {f : α → Exec σ ε β} {s s' : σ} {a : α}
    (h : exec m s = (.ok a, s')) : exec (m >>= f) s = exec (f a) s' := by
  rw [exec_bind, h]

theorem exec_bind_error {f : α → Exec σ ε β} {s s' : σ} {e : ε}
    (h : exec m s = (.error e, s')) : exec (m >>= f) s = (.error e, s') := by
  rw [exec_bind, h]

/-- `try { m } catch (e) { throw f(e); }`. -/
def mapError (f : ε → ε) (m : Exec σ ε α) : Exec σ ε α := ExceptT.mk (Except.mapError f <$> m.run)

theorem exec_mapError (f : ε → ε) (m : Exec σ ε α) (s : σ) :
    exec (mapError f m) s = ((exec m s).1.mapError f, (exec m s).2) := rfl

/-- A primitive operation on the state. -/
def act (f : σ → Except ε α × σ) : Exec σ ε α := ExceptT.mk f

/-- `try { m } catch (e) { handler(e); }`. -/
def catching (m : Exec σ ε α) (handler : ε → Exec σ ε α) : Exec σ ε α :=
  ExceptT.mk (m.run >>= fun r =>
    match r with
    | .ok a => pure (.ok a)
    | .error e => (handler e).run)

theorem exec_catching (m : Exec σ ε α) (handler : ε → Exec σ ε α) (s : σ) :
    exec (catching m handler) s =
      match exec m s with
      | (.ok a, s') => (.ok a, s')
      | (.error e, s') => exec (handler e) s' := by
  show (StateT.run _ s : Id _) = _
  simp only [catching, ExceptT.run_mk, StateT.run_bind, exec]
  rcases h : m.run.run s with ⟨r, s'⟩
  cases r <;> rfl

/-! ### Weakest preconditions -/

/-- Running `m` from `s` ends in a result and a state that satisfy `Q`. -/
def wp (m : Exec σ ε α) (s : σ) (Q : Except ε α → σ → Prop) : Prop := Q (exec m s).1 (exec m s).2

theorem wp_mono {s : σ} {Q R : Except ε α → σ → Prop}
    (h : wp m s Q) (hQR : ∀ r s', Q r s' → R r s') : wp m s R := hQR _ _ h

@[simp] theorem wp_pure (a : α) (s : σ) (Q : Except ε α → σ → Prop) :
    wp (pure a) s Q ↔ Q (.ok a) s := Iff.rfl

@[simp] theorem wp_throw (e : ε) (s : σ) (Q : Except ε α → σ → Prop) :
    wp (throw e) s Q ↔ Q (.error e) s := Iff.rfl

@[simp] theorem wp_get (s : σ) (Q : Except ε σ → σ → Prop) : wp get s Q ↔ Q (.ok s) s := Iff.rfl

@[simp] theorem wp_modify (f : σ → σ) (s : σ) (Q : Except ε Unit → σ → Prop) :
    wp (modify f) s Q ↔ Q (.ok ()) (f s) := Iff.rfl

@[simp] theorem wp_act (f : σ → Except ε α × σ) (s : σ) (Q : Except ε α → σ → Prop) :
    wp (act f) s Q ↔ Q (f s).1 (f s).2 := Iff.rfl

/-- The postcondition that sequencing with `f` asks of the first computation. -/
def seqPost (f : α → Exec σ ε β) (Q : Except ε β → σ → Prop) : Except ε α → σ → Prop
  | .ok a, s => wp (f a) s Q
  | .error e, s => Q (.error e) s

@[simp] theorem seqPost_ok (f : α → Exec σ ε β) (Q : Except ε β → σ → Prop) (a : α) (s : σ) :
    seqPost f Q (.ok a) s ↔ wp (f a) s Q := Iff.rfl

@[simp] theorem seqPost_error (f : α → Exec σ ε β) (Q : Except ε β → σ → Prop) (e : ε) (s : σ) :
    seqPost f Q (.error e) s ↔ Q (.error e) s := Iff.rfl

@[simp] theorem wp_bind (m : Exec σ ε α) (f : α → Exec σ ε β) (s : σ) (Q : Except ε β → σ → Prop) :
    wp (m >>= f) s Q ↔ wp m s (seqPost f Q) := by
  unfold wp
  rw [exec_bind]
  rcases exec m s with ⟨r, s'⟩
  cases r <;> rfl

/-- The postcondition that a handler asks of the computation it guards. -/
def catchPost (handler : ε → Exec σ ε α) (Q : Except ε α → σ → Prop) : Except ε α → σ → Prop
  | .ok a, s => Q (.ok a) s
  | .error e, s => wp (handler e) s Q

@[simp] theorem wp_catching (m : Exec σ ε α) (handler : ε → Exec σ ε α) (s : σ) (Q : Except ε α → σ → Prop) :
    wp (catching m handler) s Q ↔ wp m s (catchPost handler Q) := by
  unfold wp
  rw [exec_catching]
  rcases exec m s with ⟨r, s'⟩
  cases r <;> rfl

theorem wp_ite {p : Prop} [Decidable p] {m n : Exec σ ε α} {s : σ} {Q : Except ε α → σ → Prop} :
    wp (if p then m else n) s Q ↔ if p then wp m s Q else wp n s Q := by
  by_cases hp : p <;> simp [hp]

/-! ### Computations that leave the state alone -/

/-- `m` may return or throw, but the state stays as it is. -/
def ReadOnly (m : Exec σ ε α) : Prop := ∀ s, (exec m s).2 = s

namespace ReadOnly

theorem pure (a : α) : ReadOnly (Pure.pure a : Exec σ ε α) := fun _ => rfl

theorem throw (e : ε) : ReadOnly (throw e : Exec σ ε α) := fun _ => rfl

theorem get : ReadOnly (get : Exec σ ε σ) := fun _ => rfl

theorem bind {f : α → Exec σ ε β} (hm : ReadOnly m) (hf : ∀ a, ReadOnly (f a)) :
    ReadOnly (m >>= f) := by
  intro s
  rw [exec_bind]
  have h := hm s
  rcases hr : exec m s with ⟨r, s'⟩
  rw [hr] at h
  cases r with
  | ok a => exact (hf a s').trans h
  | error e => exact h

theorem ite {p : Prop} [Decidable p] {m n : Exec σ ε α} (hm : ReadOnly m) (hn : ReadOnly n) :
    ReadOnly (if p then m else n) := by
  split
  · exact hm
  · exact hn

/-- A read-only computation is judged by what it returns or throws from the state it is run in. -/
theorem wp_iff (hm : ReadOnly m) (s : σ) (Q : Except ε α → σ → Prop) :
    wp m s Q ↔ Q (exec m s).1 s := by
  unfold wp
  rw [hm s]

/-- After a read-only computation it is enough to treat every result it returns and every exception. -/
theorem wp_of (hm : ReadOnly m) {s : σ} {Q : Except ε α → σ → Prop} (hok : ∀ a, exec m s = (.ok a, s) → Q (.ok a) s)
    (herror : ∀ e, exec m s = (.error e, s) → Q (.error e) s) : wp m s Q := by
  rw [hm.wp_iff]
  have h := hm s
  rcases hr : exec m s with ⟨r, s'⟩
  rw [hr] at h
  cases h
  cases r with
  | ok a => exact hok a hr
  | error e => exact herror e hr

end ReadOnly

end Exec

/-! ### Partial computations -/

/-- The computation gives a result, and the result satisfies `Q`. -/
def Returns {α : Type} (m : Option α) (Q : α → Prop) : Prop := ∃ a, m = some a ∧ Q a

namespace Returns

variable {α β : Type} {m : Option α} {f : α → Option β} {Q R : α → Prop} {S : β → Prop}

@[simp] theorem some_iff {a : α} : Returns (some a) Q ↔ Q a := by
  simp [Returns]

theorem mono (h : Returns m Q) (hQR : ∀ a, Q a → R a) : Returns m R := by
  obtain ⟨a, ha, hQ⟩ := h
  exact ⟨a, ha, hQR a hQ⟩

theorem bind (h : Returns m Q) (hf : ∀ a, Q a → Returns (f a) S) : Returns (m >>= f) S := by
  obtain ⟨a, rfl, hQ⟩ := h
  exact hf a hQ

theorem of_eq {a : α} (h : Returns m Q) (ha : m = some a) : Q a := by
  obtain ⟨b, hb, hQ⟩ := h
  cases ha.symm.trans hb
  exact hQ

end Returns
