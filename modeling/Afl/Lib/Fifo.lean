import Mathlib.Data.List.Sublists

/-!
# Queues that work on their first element

Jobs are submitted one after another, wait in a queue, and may leave it in any order. Only the first one in the
queue is worked on. What the jobs have produced, in the order in which they were submitted, then only ever grows at
its end.
-/

variable {ω β : Type}

/-- The queue holds jobs in the order in which they were submitted, and nothing after the first one has produced
anything. -/
structure Fifo (queue submitted : List ω) (content : ω → List β) : Prop where
  nodup : submitted.Nodup
  order : ∀ first rest, queue = first :: rest →
    ∃ before after, submitted = before ++ first :: after ∧ rest.Sublist after ∧ ∀ job ∈ after, content job = []

namespace Fifo

variable {queue submitted : List ω} {content : ω → List β}

theorem empty {content : ω → List β} : Fifo [] [] content where
  nodup := List.nodup_nil
  order := fun _ _ h => by cases h

theorem mem_submitted (h : Fifo queue submitted content) {job : ω} (hjob : job ∈ queue) : job ∈ submitted := by
  rcases queue with _ | ⟨first, rest⟩
  · cases hjob
  · obtain ⟨before, after, rfl, hrest, -⟩ := h.order first rest rfl
    rcases List.mem_cons.mp hjob with rfl | hjob
    · simp
    · simp [hrest.subset hjob]

theorem nodup_queue (h : Fifo queue submitted content) : queue.Nodup := by
  rcases queue with _ | ⟨first, rest⟩
  · exact List.nodup_nil
  · obtain ⟨before, after, rfl, hrest, -⟩ := h.order first rest rfl
    exact h.nodup.sublist ((hrest.cons_cons first).trans (List.sublist_append_right before _))

theorem of_sublist (h : Fifo queue submitted content) {queue' : List ω} (hqueue : queue'.Sublist queue) :
    Fifo queue' submitted content := by
  refine ⟨h.nodup, ?_⟩
  rintro first' rest' rfl
  rcases queue with _ | ⟨first, rest⟩
  · cases hqueue
  · obtain ⟨before, after, hsubmitted, hrest, hempty⟩ := h.order first rest rfl
    cases hqueue with
    | cons_cons _ hrest' => exact ⟨before, after, hsubmitted, hrest'.trans hrest, hempty⟩
    | cons _ hlater =>
      -- The old first job has left: the new one is somewhere in `after`.
      obtain ⟨skipped, after', rfl, hmem, hrest'⟩ := List.cons_sublist_iff.mp (hlater.trans hrest)
      obtain ⟨left, right, rfl⟩ := List.append_of_mem hmem
      refine ⟨before ++ first :: left, right ++ after', ?_, ?_, ?_⟩
      · rw [hsubmitted]
        simp
      · exact hrest'.trans (List.sublist_append_right right after')
      · intro job hjob
        refine hempty job ?_
        rcases List.mem_append.mp hjob with hjob | hjob
        · simp [hjob]
        · simp [hjob]

theorem submit (h : Fifo queue submitted content) {job : ω} (hjob : job ∉ submitted) {content' : ω → List β}
    (hnew : content' job = []) (hsame : ∀ job' ∈ submitted, content' job' = content job') :
    Fifo (queue ++ [job]) (submitted ++ [job]) content' := by
  refine ⟨h.nodup.append (List.nodup_singleton job) (List.disjoint_singleton.mpr hjob), ?_⟩
  intro first rest hqueue
  rcases queue with _ | ⟨first', rest'⟩
  · obtain ⟨rfl, rfl⟩ := List.cons.inj hqueue
    exact ⟨submitted, [], rfl, List.Sublist.refl _, fun _ h => by cases h⟩
  · obtain ⟨rfl, rfl⟩ := List.cons.inj hqueue
    obtain ⟨before, after, hsubmitted, hrest, hempty⟩ := h.order first' rest' rfl
    refine ⟨before, after ++ [job], ?_, hrest.append (List.Sublist.refl _), ?_⟩
    · rw [hsubmitted]
      simp
    · intro job' hjob'
      rcases List.mem_append.mp hjob' with hold | hold
      · rw [hsame job' (by rw [hsubmitted]; simp [hold]), hempty job' hold]
      · rw [List.mem_singleton.mp hold, hnew]

theorem flatMap_submit {job : ω} {content' : ω → List β} (hnew : content' job = [])
    (hsame : ∀ job' ∈ submitted, content' job' = content job') :
    (submitted ++ [job]).flatMap content' = submitted.flatMap content := by
  rw [List.flatMap_append, List.flatMap_singleton, hnew, List.append_nil]
  exact List.flatMap_congr hsame

/-! ### Work on the first job -/

variable {first : ω} {rest : List ω} {content' : ω → List β} {more : List β}

theorem ne_first (h : Fifo (first :: rest) submitted content) {before after : List ω}
    (hsubmitted : submitted = before ++ first :: after) : first ∉ before ∧ first ∉ after := by
  have hnodup := h.nodup
  rw [hsubmitted] at hnodup
  obtain ⟨-, hafter, hdisjoint⟩ := List.nodup_append.mp hnodup
  refine ⟨?_, (List.nodup_cons.mp hafter).1⟩
  intro hmem
  exact hdisjoint first hmem first List.mem_cons_self rfl

theorem produce (h : Fifo (first :: rest) submitted content) (hsame : ∀ job ≠ first, content' job = content job) :
    Fifo (first :: rest) submitted content' := by
  refine ⟨h.nodup, ?_⟩
  intro first' rest' hqueue
  obtain ⟨rfl, rfl⟩ := List.cons.inj hqueue
  obtain ⟨before, after, hsubmitted, hrest, hempty⟩ := h.order first rest rfl
  refine ⟨before, after, hsubmitted, hrest, ?_⟩
  intro job hjob
  have hne : job ≠ first := by
    rintro rfl
    exact (h.ne_first hsubmitted).2 hjob
  rw [hsame job hne, hempty job hjob]

/-- **What the first job produces is appended to everything produced so far.** -/
theorem flatMap_produce (h : Fifo (first :: rest) submitted content) (hfirst : content' first = content first ++ more)
    (hsame : ∀ job ≠ first, content' job = content job) :
    submitted.flatMap content' = submitted.flatMap content ++ more := by
  obtain ⟨before, after, hsubmitted, -, hempty⟩ := h.order first rest rfl
  obtain ⟨hbefore, hafter⟩ := h.ne_first hsubmitted
  have hbefore' : before.flatMap content' = before.flatMap content := by
    refine List.flatMap_congr ?_
    intro job hjob
    exact hsame job fun heq => hbefore (heq ▸ hjob)
  have hafter' : after.flatMap content' = after.flatMap content := by
    refine List.flatMap_congr ?_
    intro job hjob
    exact hsame job fun heq => hafter (heq ▸ hjob)
  have hnothing : after.flatMap content = [] := List.flatMap_eq_nil_iff.mpr hempty
  rw [hsubmitted, List.flatMap_append, List.flatMap_append, List.flatMap_cons, List.flatMap_cons, hbefore', hafter',
    hnothing, hfirst]
  simp

end Fifo
