import Mathlib.Data.List.Basic

/-!
# Loops that are left from the middle

One round of a loop goes on in a new state, or leaves the loop with a result. `Ends` says that a loop is left at all,
and with which result; a loop all of whose rounds decrease a measure is the function `complete`.
-/

namespace Loop

variable {σ τ α β : Type}

inductive Round (σ α : Type)
  | again (s : σ)
  | leave (a : α)

/-- The result of a loop that is left within a number of rounds. -/
def run (round : σ → Round σ α) : Nat → σ → Option α
  | 0, _ => none
  | fuel + 1, s =>
    match round s with
    | .again s' => run round fuel s'
    | .leave a => some a

/-- The loop is left with the given result. -/
def Ends (round : σ → Round σ α) (s : σ) (a : α) : Prop := ∃ fuel, run round fuel s = some a

variable {round : σ → Round σ α} {s s' : σ} {a : α}

theorem run_again {fuel : Nat} (h : round s = .again s') : run round (fuel + 1) s = run round fuel s' := by
  rw [run, h]

theorem run_leave {fuel : Nat} (h : round s = .leave a) : run round (fuel + 1) s = some a := by
  rw [run, h]

namespace Ends

theorem leave (h : round s = .leave a) : Ends round s a := ⟨1, run_leave h⟩

theorem again (h : round s = .again s') (hends : Ends round s' a) : Ends round s a := by
  obtain ⟨fuel, hrun⟩ := hends
  exact ⟨fuel + 1, (run_again h).trans hrun⟩

theorem of_invariant {I : σ → Prop} {Q : α → Prop} (hagain : ∀ {s s'}, I s → round s = .again s' → I s')
    (hleave : ∀ {s a}, I s → round s = .leave a → Q a) (hs : I s) (hends : Ends round s a) : Q a := by
  obtain ⟨fuel, hrun⟩ := hends
  induction fuel generalizing s with
  | zero => cases hrun
  | succ fuel ih =>
    rcases hround : round s with s' | a'
    · exact ih (hagain hs hround) ((run_again hround).symm.trans hrun)
    · rw [run_leave hround, Option.some.injEq] at hrun
      exact hrun ▸ hleave hs hround

theorem next (hends : Ends round s a) (h : round s = .again s') : Ends round s' a := by
  obtain ⟨_ | fuel, hrun⟩ := hends
  · cases hrun
  · exact ⟨fuel, (run_again h).symm.trans hrun⟩

theorem eq_of_leave {a' : α} (hends : Ends round s a) (h : round s = .leave a') : a = a' := by
  obtain ⟨_ | fuel, hrun⟩ := hends
  · cases hrun
  · exact (Option.some.inj ((run_leave h).symm.trans hrun)).symm

theorem unique {a' : α} (hends : Ends round s a) (hends' : Ends round s a') : a = a' :=
  of_invariant (I := fun s => Ends round s a') (Q := fun a => a = a') (fun h hround => h.next hround)
    (fun h hround => (h.eq_of_leave hround).symm) hends' hends

theorem of_measure {I : σ → Prop} (μ : σ → Nat)
    (hagain : ∀ {s s'}, I s → round s = .again s' → I s' ∧ μ s' < μ s) (hs : I s) : ∃ a, Ends round s a := by
  induction hμ : μ s using Nat.strongRecOn generalizing s with
  | ind n ih =>
    rcases hround : round s with s' | a
    · obtain ⟨hs', hless⟩ := hagain hs hround
      obtain ⟨a, hends⟩ := ih (μ s') (hμ ▸ hless) hs' rfl
      exact ⟨a, hends.again hround⟩
    · exact ⟨a, leave hround⟩

/-- **Total correctness**: every round keeps an invariant and decreases a measure, or leaves the loop with a good
result. -/
theorem of_rounds {I : σ → Prop} {Q : α → Prop} (μ : σ → Nat)
    (hround : ∀ {s}, I s → (∃ s', round s = .again s' ∧ I s' ∧ μ s' < μ s) ∨ ∃ a, round s = .leave a ∧ Q a)
    (hs : I s) : ∃ a, Ends round s a ∧ Q a := by
  induction hμ : μ s using Nat.strongRecOn generalizing s with
  | ind n ih =>
    rcases hround hs with ⟨s', hagain, hs', hless⟩ | ⟨a, hleave, hQ⟩
    · obtain ⟨a, hends, hQ⟩ := ih (μ s') (hμ ▸ hless) hs' rfl
      exact ⟨a, hends.again hagain, hQ⟩
    · exact ⟨a, leave hleave, hQ⟩

theorem lockstep {round' : τ → Round τ β} {R : σ → τ → Prop} {Q : α → β → Prop}
    (hround : ∀ {s t}, R s t → (∃ s' t', round s = .again s' ∧ round' t = .again t' ∧ R s' t') ∨
      ∃ a b, round s = .leave a ∧ round' t = .leave b ∧ Q a b)
    {t : τ} (hR : R s t) (hends : Ends round s a) : ∃ b, Ends round' t b ∧ Q a b := by
  obtain ⟨fuel, hrun⟩ := hends
  induction fuel generalizing s t with
  | zero => cases hrun
  | succ fuel ih =>
    obtain ⟨s', t', hs, ht, hR'⟩ | ⟨a', b, hs, ht, hQ⟩ := hround hR
    · obtain ⟨b, hends, hQ⟩ := ih hR' ((run_again hs).symm.trans hrun)
      exact ⟨b, hends.again ht, hQ⟩
    · rw [run_leave hs, Option.some.injEq] at hrun
      exact ⟨b, leave ht, hrun ▸ hQ⟩

end Ends

/-! ### Loops that get stuck -/

/-- The states that a loop comes to. -/
inductive Visits (round : σ → Round σ α) (s : σ) : σ → Prop
  | start : Visits round s s
  | again {t t'} (hvisits : Visits round s t) (hround : round t = .again t') : Visits round s t'

theorem Visits.ends {t : σ} (hvisits : Visits round s t) (hends : Ends round s a) : Ends round t a := by
  induction hvisits with
  | start => exact hends
  | again _ hround ih => exact ih.next hround

theorem Visits.of_again {t : σ} (h : round s = .again s') (hvisits : Visits round s' t) : Visits round s t := by
  induction hvisits with
  | start => exact .again .start h
  | again _ hround ih => exact ih.again hround

/-- **A loop is left unless it gets stuck**, if a stuck state is followed by a stuck state, and every other round
decreases a measure. -/
theorem ends_iff_not_stuck {I Stuck : σ → Prop} (μ : σ → Nat)
    (hstuck : ∀ {s}, I s → Stuck s → ∃ s', round s = .again s' ∧ I s' ∧ Stuck s')
    (hagain : ∀ {s s'}, I s → ¬Stuck s → round s = .again s' → I s' ∧ μ s' < μ s) (hs : I s) :
    (∃ a, Ends round s a) ↔ ∀ t, Visits round s t → ¬Stuck t := by
  constructor
  · rintro ⟨a, hends⟩ t hvisits hnot
    have hI : I t := by
      clear hnot hends
      induction hvisits with
      | start => exact hs
      | @again t t' _ hround ih =>
        by_cases h : Stuck t
        · obtain ⟨s', hround', hI, -⟩ := hstuck ih h
          rw [hround, Round.again.injEq] at hround'
          exact hround' ▸ hI
        · exact (hagain ih h hround).1
    -- every round from here on is stuck
    refine Ends.of_invariant (I := fun s => I s ∧ Stuck s) (Q := fun _ => False) ?_ ?_ ⟨hI, hnot⟩ (hvisits.ends hends)
    · rintro s s' ⟨hI, h⟩ hround
      obtain ⟨s'', hround', hnext⟩ := hstuck hI h
      rw [hround, Round.again.injEq] at hround'
      exact hround' ▸ hnext
    · rintro s a' ⟨hI, h⟩ hround
      obtain ⟨s'', hround', -⟩ := hstuck hI h
      rw [hround] at hround'
      cases hround'
  · intro hfree
    refine (Ends.of_measure (I := fun s => I s ∧ ∀ t, Visits round s t → ¬Stuck t) μ ?_ ⟨hs, hfree⟩)
    rintro s s' ⟨hI, hfree⟩ hround
    obtain ⟨hI', hless⟩ := hagain hI (hfree s .start) hround
    exact ⟨⟨hI', fun t hvisits => hfree t (.of_again hround hvisits)⟩, hless⟩

/-- The result of a loop whose rounds decrease a measure. -/
def complete (round : σ → Round σ α) (μ : σ → Nat) (hless : ∀ {s s'}, round s = .again s' → μ s' < μ s) (s : σ) : α :=
  match _h : round s with
  | .again s' => complete round μ hless s'
  | .leave a => a
termination_by μ s
decreasing_by exact hless _h

theorem ends_complete {μ : σ → Nat} (hless : ∀ {s s'}, round s = .again s' → μ s' < μ s) (s : σ) :
    Ends round s (complete round μ hless s) := by
  induction hμ : μ s using Nat.strongRecOn generalizing s with
  | ind n ih =>
    rw [complete]
    split
    next s' hround => exact .again hround (ih (μ s') (hμ ▸ hless hround) s' rfl)
    next a hround => exact .leave hround

theorem complete_lockstep {round' : τ → Round τ β} {R : σ → τ → Prop} {Q : α → β → Prop}
    (hround : ∀ {s t}, R s t → (∃ s' t', round s = .again s' ∧ round' t = .again t' ∧ R s' t') ∨
      ∃ a b, round s = .leave a ∧ round' t = .leave b ∧ Q a b)
    {μ : σ → Nat} (hless : ∀ {s s'}, round s = .again s' → μ s' < μ s) {μ' : τ → Nat}
    (hless' : ∀ {t t'}, round' t = .again t' → μ' t' < μ' t) {t : τ} (hR : R s t) :
    Q (complete round μ hless s) (complete round' μ' hless' t) := by
  obtain ⟨b, hends, hQ⟩ := (ends_complete hless s).lockstep hround hR
  rw [(ends_complete hless' t).unique hends]
  exact hQ

/-- A round on states and results that are written differently. -/
def Round.map (f : σ → τ) (g : α → β) : Round σ α → Round τ β
  | again s => .again (f s)
  | leave a => .leave (g a)

theorem complete_map {round' : τ → Round τ β} {f : σ → τ} {g : α → β} (hround : ∀ s, round' (f s) = (round s).map f g)
    {μ : σ → Nat} (hless : ∀ {s s'}, round s = .again s' → μ s' < μ s) {μ' : τ → Nat}
    (hless' : ∀ {t t'}, round' t = .again t' → μ' t' < μ' t) (s : σ) :
    complete round' μ' hless' (f s) = g (complete round μ hless s) := by
  refine complete_lockstep (R := fun s t => t = f s) (Q := fun a b => b = g a) ?_ hless hless' rfl
  rintro s _ rfl
  rw [hround]
  rcases round s with s' | a
  · exact .inl ⟨s', _, rfl, rfl, rfl⟩
  · exact .inr ⟨a, _, rfl, rfl, rfl⟩

theorem complete_of_run {μ : σ → Nat} (hless : ∀ {s s'}, round s = .again s' → μ s' < μ s) (fuel : Nat)
    (hrun : run round fuel s = some a) : complete round μ hless s = a :=
  (ends_complete hless s).unique ⟨fuel, hrun⟩

end Loop

/-!
## Reading in loops

A stream whose `read` is a loop that fills some memory. If every round of the loop takes the next part of the data, so
does every read, and reads that follow one another return the data.
-/

/-- How a read of a stream `σ` into some memory begins, its rounds, and what a state `ρ` of it has: the memory, how much
of it is filled, and the stream. -/
structure ReadLoop (σ ρ α ε : Type) where
  start : σ → List α → ρ
  round : ρ → Loop.Round ρ (Except ε Nat × ρ)
  memory : ρ → List α
  did : ρ → Nat
  stream : ρ → σ
  memory_start : ∀ s m, memory (start s m) = m
  did_start : ∀ s m, did (start s m) = 0
  stream_start : ∀ s m, stream (start s m) = s

namespace ReadLoop

variable {σ ρ α ε : Type} (L : ReadLoop σ ρ α ε)

/-- A read comes to an end, and returns how much of the memory it has filled. -/
def Read (s : σ) (memory : List α) (r : ρ) : Prop := Loop.Ends L.round (L.start s memory) (.ok (L.did r), r)

/-- Reads into some memories, and the data that they return. -/
inductive Reads : σ → List (List α) → List α → σ → Prop
  | nil {s} : Reads s [] [] s
  | cons {s s' memory memories r data} (hread : L.Read s memory r) (hdid : L.did r ≤ (L.memory r).length)
      (hrest : Reads (L.stream r) memories data s') :
      Reads s (memory :: memories) ((L.memory r).take (L.did r) ++ data) s'

/-- The states that reads into some memories come to. -/
inductive Visits : σ → List (List α) → ρ → Prop
  | now {s memory memories r} (hvisits : Loop.Visits L.round (L.start s memory) r) : Visits s (memory :: memories) r
  | later {s memory memories r' r} (hread : L.Read s memory r') (hvisits : Visits (L.stream r') memories r) :
      Visits s (memory :: memories) r

/-- From one state of a read to another one, the next part of the data has come to the memory. -/
structure Fills (At : σ → List α → Prop) (r : ρ) (data : List α) (r' : ρ) (data' : List α) : Prop where
  length : (L.memory r').length = (L.memory r).length
  did : L.did r' ≤ (L.memory r').length
  data : (L.memory r').take (L.did r') ++ data' = (L.memory r).take (L.did r) ++ data
  at_stream : At (L.stream r') data'

variable {L} {At : σ → List α → Prop} {Calm : ρ → Prop} {Small : Nat → Prop}

theorem eq_take_of_full {x y data : List α} {n : Nat} (h : x ++ y = data) (hle : x.length ≤ n)
    (hfull : x.length = n ∨ y = []) : x = data.take n ∧ y = data.drop n := by
  subst h
  rcases hfull with rfl | rfl
  · exact ⟨List.take_left.symm, List.drop_left.symm⟩
  · rw [List.append_nil]
    exact ⟨(List.take_of_length_le hle).symm, (List.drop_eq_nil_of_le hle).symm⟩

theorem Fills.start {s : σ} {data memory : List α} (h : At s data) :
    L.Fills At (L.start s memory) data (L.start s memory) data := by
  refine ⟨rfl, ?_, rfl, ?_⟩
  · rw [L.did_start]
    exact Nat.zero_le _
  · rwa [L.stream_start]

theorem Fills.trans {r r' r'' : ρ} {data data' data'' : List α} (h : L.Fills At r data r' data')
    (h' : L.Fills At r' data' r'' data'') : L.Fills At r data r'' data'' :=
  ⟨h'.length.trans h.length, h'.did, h'.data.trans h.data, h'.at_stream⟩

/-- A round fills the memory with the next part of the data; the last one fills the whole memory, or takes all that is
left. -/
def FillsNext (L : ReadLoop σ ρ α ε) (At : σ → List α → Prop) (μ : ρ → Nat) (r : ρ) (data : List α) : Prop :=
  ∃ r' data', L.Fills At r data r' data' ∧
    (L.round r = .again r' ∧ μ r' < μ r ∨
      L.round r = .leave (.ok (L.did r'), r') ∧ (L.did r' = (L.memory r').length ∨ data' = []))

/-- **A read returns the next part of the data**, if each of its rounds does. -/
theorem read_data (μ : ρ → Nat)
    (hround : ∀ {r data}, At (L.stream r) data → L.did r ≤ (L.memory r).length → Small (L.memory r).length → Calm r →
      L.FillsNext At μ r data)
    {s : σ} {data memory : List α} (h : At s data) (hsmall : Small memory.length)
    (hcalm : ∀ r, Loop.Visits L.round (L.start s memory) r → Calm r) :
    ∃ r, L.Read s memory r ∧ L.did r ≤ (L.memory r).length ∧
      (L.memory r).take (L.did r) = data.take memory.length ∧ At (L.stream r) (data.drop memory.length) := by
  -- every state has filled some of the memory with the data
  obtain ⟨_, hends, r, data', rfl, hfills, hfull⟩ := Loop.Ends.of_rounds
    (I := fun r => Loop.Visits L.round (L.start s memory) r ∧ ∃ data', L.Fills At (L.start s memory) data r data')
    (Q := fun a : Except ε Nat × ρ => ∃ r data', a = (.ok (L.did r), r) ∧
      L.Fills At (L.start s memory) data r data' ∧ (L.did r = (L.memory r).length ∨ data' = []))
    μ
    (by
      rintro r ⟨hvisits, data', hfills⟩
      have hlength := hfills.length
      rw [L.memory_start] at hlength
      obtain ⟨r', data'', hnext, ⟨hagain, hless⟩ | ⟨hleave, hfull⟩⟩ :=
        hround hfills.at_stream hfills.did (hlength ▸ hsmall) (hcalm r hvisits)
      · exact .inl ⟨r', hagain, ⟨hvisits.again hagain, data'', hfills.trans hnext⟩, hless⟩
      · exact .inr ⟨_, hleave, r', data'', rfl, hfills.trans hnext, hfull⟩)
    ⟨.start, data, .start h⟩
  have hlength := hfills.length
  rw [L.memory_start] at hlength
  have htaken : ((L.memory r).take (L.did r)).length = L.did r := by
    rw [List.length_take, Nat.min_eq_left hfills.did]
  have hdata := hfills.data
  rw [L.did_start, List.take_zero, List.nil_append] at hdata
  rw [hlength] at hfull
  have hle : L.did r ≤ memory.length := hlength ▸ hfills.did
  obtain ⟨htake, hdrop⟩ := eq_take_of_full hdata (htaken.symm ▸ hle) (hfull.imp_left htaken.trans)
  exact ⟨r, hends, hfills.did, htake, hdrop ▸ hfills.at_stream⟩

/-- **Reads return the data**, if every round takes the next part of it. -/
theorem reads_data (At : σ → List α → Prop) (Small : Nat → Prop) (Calm : ρ → Prop) (μ : ρ → Nat)
    (hround : ∀ {r data}, At (L.stream r) data → L.did r ≤ (L.memory r).length → Small (L.memory r).length → Calm r →
      L.FillsNext At μ r data)
    (memories : List (List α)) (hsmall : ∀ memory ∈ memories, Small memory.length) {s : σ} {data : List α}
    (h : At s data) (hcalm : ∀ r, L.Visits s memories r → Calm r) :
    ∃ s', L.Reads s memories (data.take memories.flatten.length) s' := by
  induction memories generalizing s data with
  | nil => exact ⟨s, .nil⟩
  | cons memory memories ih =>
    obtain ⟨r, hends, hdid, htake, hat⟩ :=
      read_data μ hround h (hsmall memory List.mem_cons_self) fun r hvisits => hcalm r (.now hvisits)
    obtain ⟨s', hrest⟩ := ih (fun memory' hmem => hsmall memory' (List.mem_cons_of_mem memory hmem)) hat
      fun r hvisits => hcalm r (.later hends hvisits)
    refine ⟨s', ?_⟩
    have hreads := Reads.cons hends hdid hrest
    rw [htake, ← List.take_add] at hreads
    rwa [List.flatten_cons, List.length_append]

end ReadLoop
