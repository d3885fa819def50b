import Mathlib.Logic.Basic

/-!
# Runs of a partial step function

A machine takes actions one after another; an action that has no successor state ends the run. `trace` lists
the steps a run takes, `final` is the state after the whole list. The rules turn what one step does into what
holds along every run.
-/

namespace Run

variable {σ α : Type}

/-- One step of a run: the state before, the action, the state after. -/
structure Taken (σ α : Type) where
  pre : σ
  act : α
  post : σ

/-- The steps taken from `s` under the actions, up to the first one that has no successor. -/
def trace (step : σ → α → Option σ) : σ → List α → List (Taken σ α)
  | _, [] => []
  | s, a :: acts =>
    match step s a with
    | none => []
    | some s' => ⟨s, a, s'⟩ :: trace step s' acts

/-- The state after all actions, if every one of them has a successor. -/
def final (step : σ → α → Option σ) : σ → List α → Option σ
  | s, [] => some s
  | s, a :: acts =>
    match step s a with
    | none => none
    | some s' => final step s' acts

variable {step : σ → α → Option σ}

variable {s : σ}

@[simp] theorem trace_nil : trace step s [] = [] := rfl

variable {acts : List α}

theorem trace_cons_some {s s' : σ} {a : α} (h : step s a = some s') :
    trace step s (a :: acts) = ⟨s, a, s'⟩ :: trace step s' acts := by
  rw [trace, h]

theorem trace_cons_none {a : α} (h : step s a = none) :
    trace step s (a :: acts) = [] := by
  rw [trace, h]

variable {t : Taken σ α}

theorem step_of_mem_trace (ht : t ∈ trace step s acts) :
    step t.pre t.act = some t.post := by
  induction acts generalizing s with
  | nil => simp at ht
  | cons a acts ih =>
    rcases hs : step s a with _ | s'
    · rw [trace_cons_none hs] at ht
      simp at ht
    · rw [trace_cons_some hs, List.mem_cons] at ht
      rcases ht with rfl | ht
      · exact hs
      · exact ih ht

theorem act_mem_of_mem_trace (ht : t ∈ trace step s acts) : t.act ∈ acts := by
  induction acts generalizing s with
  | nil => simp at ht
  | cons a acts ih =>
    rcases hs : step s a with _ | s'
    · rw [trace_cons_none hs] at ht
      simp at ht
    · rw [trace_cons_some hs, List.mem_cons] at ht
      rcases ht with rfl | ht
      · exact List.mem_cons_self
      · exact List.mem_cons_of_mem a (ih ht)

theorem trace_of_suffix {rest : List (Taken σ α)}
    (h : t :: rest <:+ trace step s acts) : ∃ acts', rest = trace step t.post acts' := by
  induction acts generalizing s with
  | nil => simp at h
  | cons a acts ih =>
    rcases ha : step s a with _ | s'
    · rw [trace_cons_none ha, List.suffix_nil] at h
      cases h
    · rw [trace_cons_some ha, List.suffix_cons_iff] at h
      rcases h with h | h
      · cases h
        exact ⟨acts, rfl⟩
      · exact ih h

variable {C : σ → α → Prop}

/-- **Exact conditions.** If an invariant implies the good states, is kept by the steps that meet `C`, and
every other step from it leads to a bad state, then a run stays good exactly when all its steps meet `C`. -/
theorem forall_post_iff {I G : σ → Prop} (hgood : ∀ {s}, I s → G s)
    (hkeep : ∀ {s a s'}, step s a = some s' → I s → C s a → I s')
    (hbreak : ∀ {s a s'}, step s a = some s' → I s → ¬C s a → ¬G s') (hs : I s)
    (acts : List α) :
    (∀ t ∈ trace step s acts, G t.post) ↔ ∀ t ∈ trace step s acts, C t.pre t.act := by
  induction acts generalizing s with
  | nil => simp
  | cons a acts ih =>
    rcases ha : step s a with _ | s'
    · simp [trace_cons_none ha]
    · rw [trace_cons_some ha, List.forall_mem_cons, List.forall_mem_cons]
      constructor
      · rintro ⟨hpost, hrest⟩
        have hC : C s a := not_not.mp fun hC => hbreak ha hs hC hpost
        exact ⟨hC, (ih (hkeep ha hs hC)).mp hrest⟩
      · rintro ⟨hC, hrest⟩
        have hpost := hkeep ha hs hC
        exact ⟨hgood hpost, (ih hpost).mpr hrest⟩

theorem forall_history_iff {I G : List (Taken σ α) → σ → Prop} (hgood : ∀ {h s}, I h s → G h s)
    (hkeep : ∀ {h s a s'}, step s a = some s' → I h s → C s a → I (h ++ [⟨s, a, s'⟩]) s')
    (hbreak : ∀ {h s a s'}, step s a = some s' → I h s → ¬C s a → ¬G (h ++ [⟨s, a, s'⟩]) s')
    {h : List (Taken σ α)} (hs : I h s) (acts : List α) :
    (∀ before t after, trace step s acts = before ++ t :: after → G (h ++ before ++ [t]) t.post) ↔
      ∀ t ∈ trace step s acts, C t.pre t.act := by
  induction acts generalizing h s with
  | nil => simp
  | cons a acts ih =>
    rcases ha : step s a with _ | s'
    · simp [trace_cons_none ha]
    · rw [trace_cons_some ha, List.forall_mem_cons]
      constructor
      · intro hall
        have hpost : G (h ++ [⟨s, a, s'⟩]) s' := by simpa using hall [] ⟨s, a, s'⟩ _ rfl
        have hC : C s a := not_not.mp fun hC => hbreak ha hs hC hpost
        refine ⟨hC, (ih (hkeep ha hs hC)).mp ?_⟩
        intro before t after hsplit
        simpa using hall (⟨s, a, s'⟩ :: before) t after (by rw [hsplit, List.cons_append])
      · rintro ⟨hC, hrest⟩ before t after hsplit
        have hnext := hkeep ha hs hC
        cases before with
        | nil =>
          cases hsplit
          simpa using hgood hnext
        | cons t' before =>
          rw [List.cons_append, List.cons.injEq] at hsplit
          obtain ⟨rfl, hsplit⟩ := hsplit
          simpa using (ih hnext).mpr hrest before t after hsplit

variable {I : σ → Prop}

theorem forall_post (hstep : ∀ {s a s'}, step s a = some s' → I s → I s')
    (hs : I s) (acts : List α) : ∀ t ∈ trace step s acts, I t.pre ∧ I t.post := by
  induction acts generalizing s with
  | nil => simp
  | cons a acts ih =>
    rcases ha : step s a with _ | s'
    · simp [trace_cons_none ha]
    · rw [trace_cons_some ha, List.forall_mem_cons]
      exact ⟨⟨hs, hstep ha hs⟩, ih (hstep ha hs)⟩

/-- What every step meeting `C` does where an invariant holds that these steps keep, every step of a run of such steps
does. -/
theorem forall_taken_where {G : Taken σ α → Prop}
    (hstep : ∀ {s a s'}, step s a = some s' → I s → C s a → I s' ∧ G ⟨s, a, s'⟩) (hs : I s) (acts : List α)
    (hacts : ∀ t ∈ trace step s acts, C t.pre t.act) : ∀ t ∈ trace step s acts, G t := by
  induction acts generalizing s with
  | nil => simp
  | cons a acts ih =>
    rcases ha : step s a with _ | s'
    · simp [trace_cons_none ha]
    · rw [trace_cons_some ha, List.forall_mem_cons] at hacts ⊢
      obtain ⟨hinv, hgood⟩ := hstep ha hs hacts.1
      exact ⟨hgood, ih hinv hacts.2⟩

theorem of_final_where (hstep : ∀ {s a s'}, step s a = some s' → I s → C s a → I s')
    {s s' : σ} (hs : I s) (hacts : ∀ t ∈ trace step s acts, C t.pre t.act)
    (h : final step s acts = some s') : I s' := by
  induction acts generalizing s with
  | nil =>
    cases h
    exact hs
  | cons a acts ih =>
    rw [final] at h
    rcases ha : step s a with _ | s₁ <;> rw [ha] at h
    · cases h
    · rw [trace_cons_some ha, List.forall_mem_cons] at hacts
      exact ih (hstep ha hs hacts.1) hacts.2 h

theorem of_final (hstep : ∀ {s a s'}, step s a = some s' → I s → I s') {s s' : σ}
    (hs : I s) (h : final step s acts = some s') : I s' :=
  of_final_where (C := fun _ _ => True) (fun ha hi _ => hstep ha hi) hs (fun _ _ => trivial) h

theorem of_mem_trace_final_where (hstep : ∀ {s a s'}, step s a = some s' → I s → C s a → I s') {s s' : σ}
    (hacts : ∀ t ∈ trace step s acts, C t.pre t.act) (ht : t ∈ trace step s acts) (hI : I t.post)
    (h : final step s acts = some s') : I s' := by
  induction acts generalizing s with
  | nil => simp at ht
  | cons a acts ih =>
    rw [final] at h
    rcases ha : step s a with _ | s₁ <;> rw [ha] at h
    · simp at h
    · rw [trace_cons_some ha, List.forall_mem_cons] at hacts
      rw [trace_cons_some ha, List.mem_cons] at ht
      rcases ht with rfl | ht
      · exact of_final_where hstep hI hacts.2 h
      · exact ih hacts.2 ht h

theorem of_mem_trace_final (hstep : ∀ {s a s'}, step s a = some s' → I s → I s') {s s' : σ}
    (ht : t ∈ trace step s acts) (hI : I t.post) (h : final step s acts = some s') :
    I s' :=
  of_mem_trace_final_where (C := fun _ _ => True) (fun ha hi _ => hstep ha hi) (fun _ _ => trivial) ht hI h

theorem final_append (acts more : List α) :
    final step s (acts ++ more) = (final step s acts).bind fun s' => final step s' more := by
  induction acts generalizing s with
  | nil => rfl
  | cons a acts ih =>
    rw [List.cons_append, final, final]
    rcases step s a with _ | s'
    · rfl
    · exact ih

theorem final_replicate {f : Nat → σ} {round : List α} (hround : ∀ n, final step (f n) round = some (f (n + 1)))
    (n k : Nat) : final step (f n) (List.replicate k round).flatten = some (f (n + k)) := by
  induction k generalizing n with
  | zero => rfl
  | succ k ih =>
    rw [List.replicate_succ, List.flatten_cons, final_append, hround, Option.bind_some, ih]
    congr 2
    omega

end Run
