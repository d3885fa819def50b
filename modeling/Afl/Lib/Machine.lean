import Mathlib.Data.List.Basic

/-!
# Machines with outputs

A machine takes an action in every state and answers with an output. Two machines that start in related states are
compared by what they answer to the same actions.
-/

namespace Machine

variable {σ τ α β : Type}

/-- The answers to a list of actions. -/
def outputs (step : σ → α → β × σ) : σ → List α → List β
  | _, [] => []
  | s, a :: acts => (step s a).1 :: outputs step (step s a).2 acts

/-- The state after a list of actions. -/
def after (step : σ → α → β × σ) : σ → List α → σ
  | s, [] => s
  | s, a :: acts => after step (step s a).2 acts

variable {f : σ → α → β × σ} {g : τ → α → β × τ}

theorem after_eq_foldl (f : σ → α → β × σ) (s : σ) (acts : List α) :
    after f s acts = acts.foldl (fun s a => (f s a).2) s := by
  induction acts generalizing s with
  | nil => rfl
  | cons a acts ih => exact ih (f s a).2

theorem outputs_append (f : σ → α → β × σ) (s : σ) (acts more : List α) :
    outputs f s (acts ++ more) = outputs f s acts ++ outputs f (after f s acts) more := by
  induction acts generalizing s with
  | nil => rfl
  | cons a acts ih => rw [List.cons_append, outputs, ih, outputs, after, List.cons_append]

/-- Two machines are related as long as their actions meet `C`: they answer alike and stay related. -/
theorem outputs_eq {R : σ → τ → Prop} {C : τ → α → Prop}
    (hstep : ∀ {s t a}, R s t → C t a → (f s a).1 = (g t a).1 ∧ R (f s a).2 (g t a).2) {s : σ} {t : τ} (hR : R s t)
    (acts : List α) (hC : ∀ before a rest, acts = before ++ a :: rest → C (after g t before) a) :
    outputs f s acts = outputs g t acts ∧ R (after f s acts) (after g t acts) := by
  induction acts generalizing s t with
  | nil => exact ⟨rfl, hR⟩
  | cons a acts ih =>
    obtain ⟨hsame, hnext⟩ := hstep hR (hC [] a acts rfl)
    have hrest := ih hnext fun before b rest h => hC (a :: before) b rest (by rw [h, List.cons_append])
    exact ⟨by rw [outputs, outputs, hsame, hrest.1], hrest.2⟩

theorem outputs_of_image {γ δ : Type} {c : δ → α} {φ : γ → β} {g : σ → δ → γ × σ}
    (hstep : ∀ s x, f s (c x) = (φ (g s x).1, (g s x).2)) (s : σ) (xs : List δ) :
    outputs f s (xs.map c) = (outputs g s xs).map φ ∧ after f s (xs.map c) = after g s xs := by
  induction xs generalizing s with
  | nil => exact ⟨rfl, rfl⟩
  | cons x xs ih =>
    rw [List.map_cons, outputs, outputs, after, after, hstep, (ih _).1, (ih _).2, List.map_cons]
    exact ⟨rfl, rfl⟩

/-- A machine whose state determines a value `t` that every action overwrites: it answers as the values do, and only the
last value is left. -/
theorem outputs_of_overwrite {γ δ : Type} {R : σ → τ → Prop} {w : σ → τ → σ} {c : δ → α} {φ : γ → β}
    {g : τ → δ → γ × τ} (hstep : ∀ {s t} (x : δ), R s t → f s (c x) = (φ (g t x).1, w s (g t x).2))
    (hholds : ∀ s t, R (w s t) t) (hwrite : ∀ s t u, w (w s t) u = w s u)
    {s : σ} {t : τ} (h : R s t) (x : δ) (xs : List δ) :
    outputs f s ((x :: xs).map c) = (outputs g t (x :: xs)).map φ ∧
      after f s ((x :: xs).map c) = w s (after g t (x :: xs)) := by
  induction xs generalizing s t x with
  | nil =>
    rw [List.map_cons, List.map_nil, outputs, after, hstep x h]
    exact ⟨rfl, rfl⟩
  | cons y ys ih =>
    obtain ⟨houtputs, hafter⟩ := ih (hholds s (g t x).2) y
    rw [List.map_cons, outputs, after, hstep x h, houtputs, hafter, hwrite]
    exact ⟨rfl, rfl⟩

theorem outputs_of_still {δ : Type} {c : δ → α} {answer : δ → β} {s : σ} (h : ∀ x, f s (c x) = (answer x, s))
    (xs : List δ) : outputs f s (xs.map c) = xs.map answer ∧ after f s (xs.map c) = s := by
  induction xs with
  | nil => exact ⟨rfl, rfl⟩
  | cons x xs ih =>
    rw [List.map_cons, outputs, after, h x, ih.1, ih.2]
    exact ⟨rfl, rfl⟩

/-- **Exact conditions.** If the actions that meet `C` keep two machines related, and any other action leads related
states to a state that is not good, then the machines agree and are good throughout exactly when all actions meet `C`. -/
theorem outputs_eq_iff {R G : σ → τ → Prop} {C : τ → α → Prop} (hgood : ∀ {s t}, R s t → G s t)
    (hstep : ∀ {s t a}, R s t → C t a → (f s a).1 = (g t a).1 ∧ R (f s a).2 (g t a).2)
    (hbreak : ∀ {s t a}, R s t → ¬C t a → ¬G (f s a).2 (g t a).2) {s : σ} {t : τ} (hR : R s t) (acts : List α) :
    (∀ before, before <+: acts →
      outputs f s before = outputs g t before ∧ G (after f s before) (after g t before)) ↔
      ∀ before a rest, acts = before ++ a :: rest → C (after g t before) a := by
  constructor
  · intro hall before a rest hacts
    induction acts generalizing s t before with
    | nil =>
      rw [eq_comm, List.append_eq_nil_iff] at hacts
      cases hacts.2
    | cons b acts ih =>
      -- the first action meets the condition, or the state after it would be bad
      have hfirst : C t b := by
        by_contra hC
        exact hbreak hR hC (hall [b] (List.prefix_append [b] acts)).2
      cases before with
      | nil =>
        cases hacts
        exact hfirst
      | cons b' before =>
        rw [List.cons_append, List.cons.injEq] at hacts
        obtain ⟨rfl, hacts⟩ := hacts
        refine ih (hstep hR hfirst).2 (fun before hbefore => ?_) before hacts
        have hcons := hall (b :: before) (List.cons_prefix_cons.mpr ⟨rfl, hbefore⟩)
        rw [outputs, outputs, List.cons.injEq] at hcons
        exact ⟨hcons.1.2, hcons.2⟩
  · rintro hC before ⟨rest, rfl⟩
    have hrun := outputs_eq hstep hR before fun start a more h =>
      hC start a (more ++ rest) (by rw [h, List.append_assoc, List.cons_append])
    exact ⟨hrun.1, hgood hrun.2⟩

theorem forall_splits_cons {P : List α → α → Prop} {b : α} {acts : List α} :
    (∀ before a rest, b :: acts = before ++ a :: rest → P before a) ↔
      P [] b ∧ ∀ before a rest, acts = before ++ a :: rest → P (b :: before) a := by
  constructor
  · exact fun h => ⟨h [] b acts rfl, fun before a rest hacts => h (b :: before) a rest (by rw [hacts, List.cons_append])⟩
  · rintro ⟨hfirst, hothers⟩ (_ | ⟨b', before⟩) a rest hacts
    · cases hacts
      exact hfirst
    · rw [List.cons_append, List.cons.injEq] at hacts
      obtain ⟨rfl, hacts⟩ := hacts
      exact hothers before a rest hacts

/-- **Exact conditions, step by step.** If the actions that meet `C` keep an invariant and are good steps, and any other
action is a bad one, then all steps are good exactly when all actions meet `C`. -/
theorem steps_iff {I : σ → Prop} {C : σ → α → Prop} {G : β × σ → Prop}
    (hstep : ∀ {s a}, I s → C s a → I (f s a).2 ∧ G (f s a)) (hbreak : ∀ {s a}, I s → ¬C s a → ¬G (f s a))
    {s : σ} (hI : I s) (acts : List α) :
    (∀ before a rest, acts = before ++ a :: rest → G (f (after f s before) a)) ↔
      ∀ before a rest, acts = before ++ a :: rest → C (after f s before) a := by
  induction acts generalizing s with
  | nil =>
    have hnone : ∀ before (a : α) rest, [] ≠ before ++ a :: rest := fun before a rest h => by
      rw [eq_comm, List.append_eq_nil_iff] at h
      cases h.2
    exact ⟨fun _ before a rest h => absurd h (hnone before a rest), fun _ before a rest h => absurd h (hnone before a rest)⟩
  | cons b acts ih =>
    rw [forall_splits_cons (P := fun before a => G (f (after f s before) a)),
      forall_splits_cons (P := fun before a => C (after f s before) a)]
    by_cases hC : C s b
    · obtain ⟨hnext, hgood⟩ := hstep hI hC
      exact and_congr (iff_of_true hgood hC) (ih hnext)
    · exact iff_of_false (fun h => hbreak hI hC h.1) fun h => hC h.1

/-- How a specification that may choose comes from one state to another one by answers. -/
inductive Path (Step : τ → α → β → τ → Prop) : τ → List α → List β → τ → Prop
  | nil (t : τ) : Path Step t [] [] t
  | cons {t t' t'' : τ} {a : α} {b : β} {acts : List α} {answers : List β} :
    Step t a b t' → Path Step t' acts answers t'' → Path Step t (a :: acts) (b :: answers) t''

/-- **Simulation.** A machine whose steps are all steps of the specification answers as the specification allows. -/
theorem simulates {R : σ → τ → Prop} {Step : τ → α → β → τ → Prop} {C : α → Prop}
    (hstep : ∀ {s t a}, R s t → C a → ∃ t', Step t a (f s a).1 t' ∧ R (f s a).2 t') {s : σ} {t : τ} (hR : R s t)
    (acts : List α) (hC : ∀ a ∈ acts, C a) :
    ∃ t', Path Step t acts (outputs f s acts) t' ∧ R (after f s acts) t' := by
  induction acts generalizing s t with
  | nil => exact ⟨t, .nil t, hR⟩
  | cons a acts ih =>
    obtain ⟨hfirst, hrest⟩ := List.forall_mem_cons.mp hC
    obtain ⟨t', hanswer, hnext⟩ := hstep hR hfirst
    obtain ⟨t'', hpath, hlast⟩ := ih hnext hrest
    exact ⟨t'', .cons hanswer hpath, hlast⟩

end Machine
