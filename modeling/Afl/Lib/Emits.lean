import Mathlib.Data.List.Basic

/-!
# Sources of symbols

A source answers a call with a symbol and a next state, or does not return. `Emits` says that successive calls give
a list of symbols. What a source emits up to a stop symbol is unique and satisfies what its states guarantee; sources
whose states correspond emit the same; and a source that gets nearer to its end with every call gets there.
-/

/-- Calls of `next` from `s` give the symbols one after another and leave the source in the last state. -/
inductive Emits {σ α : Type} (next : σ → Option (α × σ)) : σ → List α → σ → Prop
  | nil (s : σ) : Emits next s [] s
  | cons {s s' t : σ} {a : α} {l : List α} : next s = some (a, s') → Emits next s' l t → Emits next s (a :: l) t

namespace Emits

variable {σ α : Type} {next next' : σ → Option (α × σ)} {s s' t t' : σ} {a stop : α} {l l' : List α}

theorem single (h : next s = some (a, t)) : Emits next s [a] t := .cons h (.nil t)

theorem append (h : Emits next s l s') (h' : Emits next s' l' t) : Emits next s (l ++ l') t := by
  induction h with
  | nil => exact h'
  | cons hnext _ ih => exact .cons hnext (ih h')

theorem mono (hle : ∀ s r, next s = some r → next' s = some r) (h : Emits next s l t) : Emits next' s l t := by
  induction h with
  | nil => exact .nil _
  | cons hnext _ ih => exact .cons (hle _ _ hnext) ih

theorem simulate {τ : Type} {next' : τ → Option (α × τ)} {R : σ → τ → Prop}
    (hstep : ∀ {s t a s'}, R s t → next s = some (a, s') → ∃ t', next' t = some (a, t') ∧ R s' t') {t : τ} (hst : R s t)
    (h : Emits next s l s') : ∃ t', Emits next' t l t' := by
  induction h generalizing t with
  | nil => exact ⟨t, .nil t⟩
  | cons hnext _ ih =>
    obtain ⟨t', hnext', hR⟩ := hstep hst hnext
    obtain ⟨u, hrest⟩ := ih hR
    exact ⟨u, .cons hnext' hrest⟩

theorem unique (h : Emits next s (l ++ [stop]) t) (h' : Emits next s (l' ++ [stop]) t') (hl : stop ∉ l)
    (hl' : stop ∉ l') : l = l' := by
  induction l generalizing s l' with
  | nil =>
    cases l' with
    | nil => rfl
    | cons b l' =>
      cases h with
      | cons hnext _ =>
        cases h' with
        | cons hnext' _ =>
          cases hnext.symm.trans hnext'
          exact absurd (List.mem_cons_self) hl'
  | cons a l ih =>
    cases l' with
    | nil =>
      cases h with
      | cons hnext _ =>
        cases h' with
        | cons hnext' _ =>
          cases hnext.symm.trans hnext'
          exact absurd (List.mem_cons_self) hl
    | cons b l' =>
      cases h with
      | cons hnext hrest =>
        cases h' with
        | cons hnext' hrest' =>
          cases hnext.symm.trans hnext'
          rw [ih hrest hrest' (fun hmem => hl (List.mem_cons_of_mem _ hmem))
            fun hmem => hl' (List.mem_cons_of_mem _ hmem)]

theorem forall_mem {I : σ → Prop} {P : α → Prop} (hnext : ∀ {s a s'}, I s → next s = some (a, s') → P a ∧ I s')
    (h : Emits next s l t) (hs : I s) : ∀ a ∈ l, P a := by
  induction h with
  | nil => exact fun a ha => (by cases ha)
  | cons hcall _ ih =>
    obtain ⟨ha, hs'⟩ := hnext hs hcall
    exact List.forall_mem_cons.mpr ⟨ha, ih hs'⟩

/-- A source whose calls return and get nearer to the end, as long as they do not give the stop symbol, gives it. -/
theorem exists_stop {I : σ → Prop} (size : σ → Nat)
    (hnext : ∀ s, I s → ∃ a s', next s = some (a, s') ∧ (a = stop ∨ I s' ∧ size s' < size s)) (s : σ) (hs : I s) :
    ∃ l t, Emits next s (l ++ [stop]) t := by
  induction h : size s using Nat.strongRecOn generalizing s with
  | _ n ih =>
    obtain ⟨a, s', hcall, rfl | ⟨hs', hlt⟩⟩ := hnext s hs
    · exact ⟨[], s', single hcall⟩
    · obtain ⟨l, t, hrest⟩ := ih (size s') (h ▸ hlt) s' hs' rfl
      exact ⟨a :: l, t, .cons hcall hrest⟩

/-- A source that gives the first of the symbols that are pending, and the stop symbol if there are none. -/
theorem of_pending (pending : σ → List α) (hstop : ∀ s, pending s = [] → ∃ s', next s = some (stop, s'))
    (hcons : ∀ s a l, pending s = a :: l → ∃ s', next s = some (a, s') ∧ pending s' = l) (s : σ) :
    ∃ t, Emits next s (pending s ++ [stop]) t := by
  induction h : pending s generalizing s with
  | nil =>
    obtain ⟨s', hnext⟩ := hstop s h
    exact ⟨s', single hnext⟩
  | cons a l ih =>
    obtain ⟨s', hnext, hs'⟩ := hcons s a l h
    obtain ⟨t, hrest⟩ := ih s' hs'
    exact ⟨t, .cons hnext hrest⟩

end Emits
