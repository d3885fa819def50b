import Mathlib.Data.List.Basic

/-!
# Machines fed one symbol at a time

A resumable reader consumes symbols until it completes a value or meets one it refuses. `Reaction` is what it
does with one symbol, `run` what it does with a list of them, and `stream` what it does with a list when it
starts afresh after every value. By `run_append` and `stream_append` a reader resumes where it stopped.
-/

namespace Feed

variable {σ α ω : Type}

/-- What a reader does with one symbol. -/
inductive Reaction (σ ω : Type)
  | next (s : σ)
  | done (v : ω)
  | fail

/-- What a reader has done with some symbols: it wants more, it has completed a value, or it has refused a
symbol. Each way it leaves the symbols it has not consumed. -/
inductive Result (σ α ω : Type)
  | more (s : σ) (rest : List α)
  | done (v : ω) (rest : List α)
  | fail (s : σ) (rest : List α)

/-- Feed symbols up to the first value or refused symbol. -/
def run (step : σ → α → Reaction σ ω) : σ → List α → Result σ α ω
  | s, [] => .more s []
  | s, a :: l =>
    match step s a with
    | .next s' => run step s' l
    | .done v => .done v l
    | .fail => .fail s l

/-- The state after symbols that neither complete a value nor are refused. -/
def advance (step : σ → α → Reaction σ ω) : σ → List α → Option σ
  | s, [] => some s
  | s, a :: l =>
    match step s a with
    | .next s' => advance step s' l
    | .done _ => none
    | .fail => none

/-- Feed all symbols, starting from `s₀` again after each value: the values completed, and the state at the
end unless a symbol was refused. -/
def stream (step : σ → α → Reaction σ ω) (s₀ : σ) : σ → List α → List ω × Option σ
  | s, [] => ([], some s)
  | s, a :: l =>
    match step s a with
    | .next s' => stream step s₀ s' l
    | .done v => (v :: (stream step s₀ s₀ l).1, (stream step s₀ s₀ l).2)
    | .fail => ([], none)

variable {step : σ → α → Reaction σ ω} {s s' s₀ : σ} {a : α} {l : List α}

@[simp] theorem run_nil : run step s [] = .more s [] := rfl

theorem run_cons_next (h : step s a = .next s') : run step s (a :: l) = run step s' l := by rw [run, h]

theorem run_cons_done {v : ω} (h : step s a = .done v) : run step s (a :: l) = .done v l := by rw [run, h]

theorem run_cons_fail (h : step s a = .fail) : run step s (a :: l) = .fail s l := by rw [run, h]

theorem advance_cons_next (h : step s a = .next s') : advance step s (a :: l) = advance step s' l := by
  rw [advance, h]

theorem run_more_rest {rest : List α} (h : run step s l = .more s' rest) : rest = [] := by
  induction l generalizing s with
  | nil => cases h; rfl
  | cons a l ih =>
    rcases ha : step s a with t | v | _
    · rw [run_cons_next ha] at h
      exact ih h
    · rw [run_cons_done ha] at h
      cases h
    · rw [run_cons_fail ha] at h
      cases h

theorem run_of_advance {m : List α} (h : advance step s l = some s') :
    run step s (l ++ m) = run step s' m := by
  induction l generalizing s with
  | nil => cases h; rfl
  | cons a l ih =>
    rw [advance] at h
    rcases ha : step s a with t | v | _ <;> rw [ha] at h
    · rw [List.cons_append, run_cons_next ha]
      exact ih h
    · cases h
    · cases h

theorem advance_of_run (h : run step s l = .more s' []) : advance step s l = some s' := by
  induction l generalizing s with
  | nil => cases h; rfl
  | cons a l ih =>
    rcases ha : step s a with t | v | _
    · rw [run_cons_next ha] at h
      rw [advance_cons_next ha]
      exact ih h
    · rw [run_cons_done ha] at h
      cases h
    · rw [run_cons_fail ha] at h
      cases h

theorem advance_append {m : List α} (h : advance step s l = some s') :
    advance step s (l ++ m) = advance step s' m := by
  induction l generalizing s with
  | nil => cases h; rfl
  | cons a l ih =>
    rw [advance] at h
    rcases ha : step s a with t | v | _ <;> rw [ha] at h
    · rw [List.cons_append, advance_cons_next ha]
      exact ih h
    · cases h
    · cases h

theorem run_done_length {v : ω} {rest : List α} (h : run step s l = .done v rest) :
    rest.length < l.length := by
  induction l generalizing s with
  | nil => cases h
  | cons a l ih =>
    rcases ha : step s a with t | w | _
    · rw [run_cons_next ha] at h
      exact Nat.lt_succ_of_lt (ih h)
    · rw [run_cons_done ha] at h
      cases h
      exact Nat.lt_succ_self _
    · rw [run_cons_fail ha] at h
      cases h

theorem run_fail_length {rest : List α} (h : run step s l = .fail s' rest) : rest.length < l.length := by
  induction l generalizing s with
  | nil => cases h
  | cons a l ih =>
    rcases ha : step s a with t | w | _
    · rw [run_cons_next ha] at h
      exact Nat.lt_succ_of_lt (ih h)
    · rw [run_cons_done ha] at h
      cases h
    · rw [run_cons_fail ha] at h
      cases h
      exact Nat.lt_succ_self _

/-! ### Partial progress

A reader may stop early, with symbols left over. `Reaches` says that what it has done so far is on the way of
`run`. -/

/-- `r` is an intermediate result of feeding `l` from `s`. -/
def Reaches (step : σ → α → Reaction σ ω) (s : σ) (l : List α) : Result σ α ω → Prop
  | .more s' rest => ∃ used, l = used ++ rest ∧ advance step s used = some s'
  | .done v rest => run step s l = .done v rest
  | .fail s' rest => run step s l = .fail s' rest

theorem reaches_run (s : σ) (l : List α) : Reaches step s l (run step s l) := by
  rcases h : run step s l with ⟨s', rest⟩ | ⟨v, rest⟩ | ⟨s', rest⟩
  · obtain rfl := run_more_rest h
    exact ⟨l, by simp, advance_of_run h⟩
  · exact h
  · exact h

theorem Reaches.trans {rest : List α} {r : Result σ α ω} (h : Reaches step s l (.more s' rest))
    (hr : Reaches step s' rest r) : Reaches step s l r := by
  obtain ⟨used, rfl, hused⟩ := h
  rcases r with ⟨t, last⟩ | ⟨v, last⟩ | ⟨t, last⟩
  · obtain ⟨used', rfl, hused'⟩ := hr
    refine ⟨used ++ used', by simp, ?_⟩
    rw [advance_append hused, hused']
  · exact (run_of_advance hused).trans hr
  · exact (run_of_advance hused).trans hr

theorem Reaches.step_next {r : Result σ α ω} (h : step s a = .next s') (hr : Reaches step s' l r) :
    Reaches step s (a :: l) r := by
  have hfirst : Reaches step s (a :: l) (.more s' l) := ⟨[a], rfl, by rw [advance_cons_next h]; rfl⟩
  exact hfirst.trans hr

/-! ### Cuts -/

theorem run_append (m : List α) :
    run step s (l ++ m) =
      match run step s l with
      | .more s' _ => run step s' m
      | .done v rest => .done v (rest ++ m)
      | .fail s' rest => .fail s' (rest ++ m) := by
  induction l generalizing s with
  | nil => rfl
  | cons a l ih =>
    rw [List.cons_append]
    rcases ha : step s a with t | v | _
    · rw [run_cons_next ha, run_cons_next ha, ih]
    · rw [run_cons_done ha, run_cons_done ha]
    · rw [run_cons_fail ha, run_cons_fail ha]

/-- A piece of a stream that begins with the symbols of one value holds all of them, or a part of them after which
the rest is still to come. -/
theorem run_cut {v : ω} {piece later tail : List α} (h : run step s l = .done v [])
    (hstream : piece ++ later = l ++ tail) :
    (∃ rest, piece = l ++ rest ∧ run step s piece = .done v rest) ∨
      ∃ rest s', rest ≠ [] ∧ l = piece ++ rest ∧ run step s piece = .more s' [] ∧ run step s' rest = .done v [] := by
  have hwhole : ∀ rest, piece = l ++ rest → run step s piece = .done v rest := by
    rintro rest rfl
    rw [run_append, h]
    rfl
  rcases List.append_eq_append_iff.mp hstream with ⟨rest, rfl, -⟩ | ⟨rest, hpiece, -⟩
  · rcases eq_or_ne rest [] with rfl | hne
    · exact .inl ⟨[], by simp, hwhole [] (by simp)⟩
    · rw [run_append] at h
      rcases hr : run step s piece with ⟨s', last⟩ | ⟨w, last⟩ | ⟨s', last⟩ <;> rw [hr] at h
      · obtain rfl := run_more_rest hr
        exact .inr ⟨rest, s', hne, rfl, rfl, h⟩
      · simp only [Result.done.injEq, List.append_eq_nil_iff] at h
        exact absurd h.2.2 hne
      · cases h
  · exact .inl ⟨rest, hpiece, hwhole rest hpiece⟩

theorem stream_append (m : List α) :
    stream step s₀ s (l ++ m) =
      match stream step s₀ s l with
      | (vs, none) => (vs, none)
      | (vs, some s') => (vs ++ (stream step s₀ s' m).1, (stream step s₀ s' m).2) := by
  induction l generalizing s with
  | nil => rfl
  | cons a l ih =>
    rw [List.cons_append, stream, stream]
    rcases step s a with t | v | _
    · exact ih
    · simp only
      rw [ih]
      rcases stream step s₀ s₀ l with ⟨vs, _ | t⟩ <;> rfl
    · rfl

theorem stream_eq_run :
    stream step s₀ s l =
      match run step s l with
      | .more s' _ => ([], some s')
      | .done v rest => (v :: (stream step s₀ s₀ rest).1, (stream step s₀ s₀ rest).2)
      | .fail _ _ => ([], none) := by
  induction l generalizing s with
  | nil => rfl
  | cons a l ih =>
    rw [stream]
    rcases ha : step s a with t | v | _
    · rw [run_cons_next ha]
      exact ih
    · rw [run_cons_done ha]
    · rw [run_cons_fail ha]

/-! ### Readers that take many symbols in a turn

A reader over a buffer may work in turns, each of which consumes a stretch of the buffer or only changes the
state. -/

/-- Take turns until the buffer is empty or the reader is finished; `none` is out of fuel. -/
def turns (finished : σ → Bool) (turn : σ → List α → σ × List α) : Nat → σ → List α → Option (σ × List α)
  | 0, _, _ => none
  | fuel + 1, s, l =>
    if l.isEmpty || finished s then some (s, l) else turns finished turn fuel (turn s l).1 (turn s l).2

/-- **Rule for turns.** If every turn makes progress and passes a specification on, the loop ends and meets it. -/
theorem turns_spec (finished : σ → Bool) (turn : σ → List α → σ × List α) (rank : σ → Nat)
    {I : σ → List α → Prop} {S : σ → List α → σ × List α → Prop}
    (hstop : ∀ {s l}, I s l → l = [] ∨ finished s = true → S s l (s, l))
    (hturn : ∀ {s l}, I s l → l ≠ [] → finished s = false →
      I (turn s l).1 (turn s l).2 ∧ (turn s l).2.length + rank (turn s l).1 < l.length + rank s ∧
        ∀ out, S (turn s l).1 (turn s l).2 out → S s l out)
    {fuel : Nat} {s : σ} {l : List α} (hs : I s l) (hfuel : l.length + rank s < fuel) :
    ∃ out, turns finished turn fuel s l = some out ∧ S s l out := by
  induction fuel generalizing s l with
  | zero => omega
  | succ fuel ih =>
    rw [turns]
    by_cases hend : l = [] ∨ finished s = true
    · have hcond : (l.isEmpty || finished s) = true := by simpa using hend
      rw [if_pos hcond]
      exact ⟨_, rfl, hstop hs hend⟩
    · rw [not_or, Bool.not_eq_true] at hend
      have hcond : ¬(l.isEmpty || finished s) = true := by simp [hend]
      rw [if_neg hcond]
      obtain ⟨hinv, hless, hpass⟩ := hturn hs hend.1 hend.2
      have hleft : (turn s l).2.length + rank (turn s l).1 < fuel := by omega
      obtain ⟨out, hout, hspec⟩ := ih hinv hleft
      exact ⟨out, hout, hpass out hspec⟩

end Feed
