import Afl.Lib.Loop
import Afl.Lib.Machine

/-!
# Lists that are read on demand

A source knows the items it has read so far and can try to read on, which adds items, meets the end or throws. Items are
looked for by a condition or by a number; both read on until the item is there. If it can be foreseen which items there
will be, and how it ends, then both answer as if everything had been read in advance.
-/

namespace Lazy

variable {σ τ α ε ν : Type}

open Loop (Round)

/-- A source of items, with a measure of what is left to be read. -/
structure Source (σ α ε : Type) where
  next : σ → Except ε Bool × σ
  items : σ → List α
  left : σ → Nat
  less : ∀ {s s'}, next s = (.ok true, s') → left s' < left s

variable {s : σ}

namespace Source

variable (S : Source σ α ε)

/-- Read on, because an item is not there. -/
def readOn (s : σ) (again : σ → τ) : Round τ (Except ε (Option α) × σ) :=
  match S.next s with
  | (.ok true, s') => .again (again s')
  | (.ok false, s') => .leave (.ok none, s')
  | (.error e, s') => .leave (.error e, s')

/-- One round of `find`: look at the items that the last round has read. -/
def findRound (p : α → Bool) (r : Nat × σ) : Round (Nat × σ) (Except ε (Option α) × σ) :=
  match ((S.items r.2).drop r.1).find? p with
  | some a => .leave (.ok (some a), r.2)
  | none => S.readOn r.2 fun s' => ((S.items r.2).length, s')

def getRound (n : Nat) (s : σ) : Round σ (Except ε (Option α) × σ) :=
  match (S.items s)[n]? with
  | some a => .leave (.ok (some a), s)
  | none => S.readOn s id

variable {S}

theorem readOn_cases (s : σ) (again : σ → τ) :
    (∃ s', S.next s = (.ok true, s') ∧ S.readOn s again = .again (again s')) ∨
      (∃ s', S.next s = (.ok false, s') ∧ S.readOn s again = .leave (.ok none, s')) ∨
      ∃ e s', S.next s = (.error e, s') ∧ S.readOn s again = .leave (.error e, s') := by
  rw [readOn]
  rcases S.next s with ⟨e | _ | _, s'⟩
  · exact .inr (.inr ⟨e, s', rfl, rfl⟩)
  · exact .inr (.inl ⟨s', rfl, rfl⟩)
  · exact .inl ⟨s', rfl, rfl⟩

theorem less_readOn {again : σ → τ} {t : τ} (h : S.readOn s again = .again t) :
    ∃ s', t = again s' ∧ S.next s = (.ok true, s') ∧ S.left s' < S.left s := by
  obtain ⟨s', hnext, hround⟩ | ⟨s', -, hround⟩ | ⟨e, s', -, hround⟩ := S.readOn_cases s again
  · cases hround.symm.trans h
    exact ⟨s', rfl, hnext, S.less hnext⟩
  · cases hround.symm.trans h
  · cases hround.symm.trans h

theorem less_findRound {p : α → Bool} {r r' : Nat × σ} (h : S.findRound p r = .again r') :
    S.left r'.2 < S.left r.2 := by
  rw [findRound] at h
  split at h
  · cases h
  · obtain ⟨s', rfl, -, hless⟩ := less_readOn h
    exact hless

theorem less_getRound {n : Nat} {s s' : σ} (h : S.getRound n s = .again s') : S.left s' < S.left s := by
  rw [getRound] at h
  split at h
  · cases h
  · obtain ⟨s', rfl, -, hless⟩ := less_readOn h
    exact hless

variable (S)

/-- The first item that meets a condition. -/
def find (p : α → Bool) (s : σ) : Except ε (Option α) × σ :=
  Loop.complete (S.findRound p) (fun r => S.left r.2) less_findRound (0, s)

/-- The item with a number. -/
def get (n : Nat) (s : σ) : Except ε (Option α) × σ := Loop.complete (S.getRound n) S.left less_getRound s

end Source

/-! ### Sources that read the same -/

/-- The same answer, in related states. -/
def Alike {β : Type} (R : σ → τ → Prop) (a : β × σ) (b : β × τ) : Prop := a.1 = b.1 ∧ R a.2 b.2

/-- Two sources show the same items in states related by `W`, and read on alike in states related by `R`. -/
structure Same (S : Source σ α ε) (T : Source τ α ε) (W R : σ → τ → Prop) : Prop where
  weaken : ∀ {s t}, R s t → W s t
  items : ∀ {s t}, W s t → S.items s = T.items t
  next : ∀ {s t}, R s t → Alike R (S.next s) (T.next t)

namespace Same

variable {S : Source σ α ε} {T : Source τ α ε} {W R : σ → τ → Prop} {s : σ} {t : τ}

theorem readOn (h : Same S T W R) {σ' τ' : Type} {R' : σ' → τ' → Prop} {again : σ → σ'} {again' : τ → τ'}
    (hagain : ∀ {s t}, R s t → R' (again s) (again' t)) (hR : R s t) :
    (∃ s' t', S.readOn s again = .again s' ∧ T.readOn t again' = .again t' ∧ R' s' t') ∨
      ∃ a b, S.readOn s again = .leave a ∧ T.readOn t again' = .leave b ∧ Alike R a b := by
  obtain ⟨hout, hR'⟩ := h.next hR
  rw [Source.readOn, Source.readOn]
  rcases hs : S.next s with ⟨e | _ | _, s'⟩ <;> rcases ht : T.next t with ⟨out, t'⟩ <;>
    rw [hs, ht] at hout hR' <;> cases hout
  · exact .inr ⟨_, _, rfl, rfl, rfl, hR'⟩
  · exact .inr ⟨_, _, rfl, rfl, rfl, hR'⟩
  · exact .inl ⟨_, _, rfl, rfl, hagain hR'⟩

theorem find (h : Same S T W R) (p : α → Bool) (hR : R s t) : Alike R (S.find p s) (T.find p t) := by
  refine Loop.complete_lockstep (R := fun (r : Nat × σ) (r' : Nat × τ) => r.1 = r'.1 ∧ R r.2 r'.2) (Q := Alike R) ?_
    Source.less_findRound Source.less_findRound ⟨rfl, hR⟩
  rintro ⟨n, s⟩ ⟨-, t⟩ ⟨rfl, hR⟩
  have hitems := h.items (h.weaken hR)
  rw [Source.findRound, Source.findRound, hitems]
  rcases ((T.items t).drop n).find? p with _ | a
  · exact h.readOn (fun hR => ⟨rfl, hR⟩) hR
  · exact .inr ⟨_, _, rfl, rfl, rfl, hR⟩

theorem get (h : Same S T W R) (n : Nat) (hR : R s t) : Alike R (S.get n s) (T.get n t) := by
  refine Loop.complete_lockstep (R := R) (Q := Alike R) ?_ Source.less_getRound Source.less_getRound hR
  intro s t hR
  have hitems := h.items (h.weaken hR)
  rw [Source.getRound, Source.getRound, hitems]
  rcases (T.items t)[n]? with _ | a
  · exact h.readOn id hR
  · exact .inr ⟨_, _, rfl, rfl, rfl, hR⟩

end Same

variable {S : Source σ α ε}

theorem Source.find_of_found {p : α → Bool} {a : α} (h : (S.items s).find? p = some a) :
    S.find p s = (.ok (some a), s) := by
  have hround : S.findRound p (0, s) = .leave (.ok (some a), s) := by
    rw [findRound, List.drop_zero, h]
  exact Loop.complete_of_run less_findRound 1 (Loop.run_leave hround)

theorem Source.get_of_found {n : Nat} {a : α} (h : (S.items s)[n]? = some a) :
    S.get n s = (.ok (some a), s) := by
  have hround : S.getRound n s = .leave (.ok (some a), s) := by
    rw [getRound, h]
  exact Loop.complete_of_run less_getRound 1 (Loop.run_leave hround)

/-! ### Everything in advance -/

/-- What is answered when an item is looked for in a complete list, after which the source ends or throws. -/
def answer (item : Option α) (ending : Option ε) : Except ε (Option α) :=
  match item, ending with
  | some a, _ => .ok (some a)
  | none, none => .ok none
  | none, some e => .error e

/-- How the source ends after that: an exception that is met may be replaced. -/
def ending (after : ε → Option ε) (item : Option α) (ending : Option ε) : Option ε :=
  if item.isSome then ending else ending.bind after

/-- It can be foreseen what the complete list is and how the source ends. -/
structure Foreseen (S : Source σ α ε) (I : σ → Prop) (view : σ → List α × Option ε) (after : ε → Option ε) : Prop where
  isPrefix : ∀ {s}, I s → S.items s <+: (view s).1
  more : ∀ {s s'}, I s → S.next s = (.ok true, s') → I s' ∧ view s' = view s ∧ S.items s <+: S.items s'
  stop : ∀ {s s'}, I s → S.next s = (.ok false, s') → I s' ∧ view s = (S.items s, none) ∧ view s' = view s
  fail : ∀ {s s' e}, I s → S.next s = (.error e, s') →
    I s' ∧ view s = (S.items s, some e) ∧ view s' = (S.items s, after e)

namespace Foreseen

variable {S : Source σ α ε} {I : σ → Prop} {view : σ → List α × Option ε} {after : ε → Option ε}

/-- A result that agrees with a complete list in which an item is looked for. -/
structure Agrees (I : σ → Prop) (view : σ → List α × Option ε) (after : ε → Option ε) (full : List α × Option ε)
    (item : Option α) (out : Except ε (Option α) × σ) : Prop where
  result : out.1 = answer item full.2
  keeps : I out.2
  view : view out.2 = (full.1, ending after item full.2)

theorem agrees_readOn (h : Foreseen S I view after) (look : List α → Option α) {again : σ → τ}
    {out : Except ε (Option α) × σ} (hs : I s) (hnone : look (S.items s) = none)
    (hround : S.readOn s again = .leave out) : Agrees I view after (view s) (look (view s).1) out := by
  obtain ⟨s', -, heq⟩ | ⟨s', hnext, heq⟩ | ⟨e, s', hnext, heq⟩ := S.readOn_cases s again
  · cases heq.symm.trans hround
  · cases heq.symm.trans hround
    obtain ⟨hs', hview, hview'⟩ := h.stop hs hnext
    rw [hview] at hview' ⊢
    rw [hnone]
    exact ⟨rfl, hs', hview'⟩
  · cases heq.symm.trans hround
    obtain ⟨hs', hview, hview'⟩ := h.fail hs hnext
    rw [hview, hnone]
    exact ⟨rfl, hs', hview'⟩

theorem agrees_found (look : List α → Option α) {a : α} (hs : I s)
    (hlook : look (view s).1 = some a) : Agrees I view after (view s) (look (view s).1) (.ok (some a), s) := by
  rw [hlook]
  exact ⟨rfl, hs, rfl⟩

/-- **Finding** answers as if everything had been read in advance. -/
theorem agrees_find (h : Foreseen S I view after) (p : α → Bool) (hs : I s) :
    Agrees I view after (view s) ((view s).1.find? p) (S.find p s) := by
  refine Loop.Ends.of_invariant
    (I := fun r : Nat × σ => I r.2 ∧ view r.2 = view s ∧ ((S.items r.2).take r.1).find? p = none)
    (Q := Agrees I view after (view s) ((view s).1.find? p)) ?_ ?_ ⟨hs, rfl, rfl⟩
    (Loop.ends_complete Source.less_findRound (0, s))
  · rintro r r' ⟨hr, hview, hbefore⟩ hround
    rw [Source.findRound] at hround
    split at hround
    · cases hround
    next hnone =>
      obtain ⟨s', rfl, hnext, -⟩ := Source.less_readOn hround
      obtain ⟨hs', hview', hprefix⟩ := h.more hr hnext
      refine ⟨hs', hview'.trans hview, ?_⟩
      rw [List.prefix_iff_eq_take.mp hprefix |>.symm, ← List.take_append_drop r.1 (S.items r.2), List.find?_append,
        hbefore, hnone]
      rfl
  · rintro r out ⟨hr, hview, hbefore⟩ hround
    rw [← hview]
    have hitems : (S.items r.2).find? p = ((S.items r.2).drop r.1).find? p := by
      conv_lhs => rw [← List.take_append_drop r.1 (S.items r.2), List.find?_append, hbefore, Option.none_or]
    rw [Source.findRound] at hround
    split at hround
    next a hfound =>
      cases hround
      refine agrees_found (List.find? p) hr ?_
      obtain ⟨more, hmore⟩ := h.isPrefix hr
      rw [← hmore, List.find?_append, hitems, hfound, Option.some_or]
    next hnone => exact h.agrees_readOn (List.find? p) hr (hitems.trans hnone) hround

/-- **Enumerating** answers as if everything had been read in advance. -/
theorem agrees_get (h : Foreseen S I view after) (n : Nat) (hs : I s) :
    Agrees I view after (view s) ((view s).1[n]?) (S.get n s) := by
  refine Loop.Ends.of_invariant (I := fun s' => I s' ∧ view s' = view s)
    (Q := Agrees I view after (view s) ((view s).1[n]?)) ?_ ?_ ⟨hs, rfl⟩ (Loop.ends_complete Source.less_getRound s)
  · rintro s₁ s₂ ⟨hs₁, hview⟩ hround
    rw [Source.getRound] at hround
    split at hround
    · cases hround
    · obtain ⟨s', rfl, hnext, -⟩ := Source.less_readOn hround
      obtain ⟨hs', hview', -⟩ := h.more hs₁ hnext
      exact ⟨hs', hview'.trans hview⟩
  · rintro s₁ out ⟨hs₁, hview⟩ hround
    rw [← hview]
    rw [Source.getRound] at hround
    split at hround
    next a hfound =>
      cases hround
      refine agrees_found (fun l => l[n]?) hs₁ ?_
      obtain ⟨more, hmore⟩ := h.isPrefix hs₁
      obtain ⟨hn, -⟩ := List.getElem?_eq_some_iff.mp hfound
      rw [← hmore, List.getElem?_append_left hn, hfound]
    next hnone => exact h.agrees_readOn (fun l => l[n]?) hs₁ hnone hround

end Foreseen

/-! ### Each key once -/

section

variable [DecidableEq ν] (key : α → ν)

/-- Add an item if no item has its key yet. -/
def addNew (l : List α) (a : α) : List α := if ∀ b ∈ l, key b ≠ key a then l ++ [a] else l

/-- The first item of each key. -/
def firsts : List α → List α
  | [] => []
  | a :: l => a :: (firsts l).filter fun b => key b ≠ key a

theorem foldl_addNew (acc l : List α) :
    l.foldl (addNew key) acc = acc ++ (firsts key l).filter fun a => ∀ b ∈ acc, key b ≠ key a := by
  induction l generalizing acc with
  | nil => rw [firsts, List.filter_nil, List.append_nil, List.foldl_nil]
  | cons a l ih =>
    rw [List.foldl_cons, ih, firsts, List.filter_cons, List.filter_filter, addNew]
    split_ifs with hnew hkeep hkeep
    · simp only [List.mem_append, List.mem_singleton, List.append_assoc, List.singleton_append]
      congr 2
      apply List.filter_congr
      intro b _
      simp [or_imp, forall_and, eq_comm]
    · exact absurd (decide_eq_true hnew) hkeep
    · exact absurd (of_decide_eq_true hkeep) hnew
    · -- an item with that key is there, so those with it are left out anyway
      obtain ⟨c, hc, hkey⟩ : ∃ c ∈ acc, key c = key a := by simpa using hnew
      congr 1
      apply List.filter_congr
      intro b _
      have hother : (∀ c ∈ acc, key c ≠ key b) → key b ≠ key a := fun h heq => h c hc (hkey.trans heq.symm)
      by_cases hall : ∀ c ∈ acc, key c ≠ key b
      · rw [decide_eq_true hall, decide_eq_true (hother hall)]
        rfl
      · rw [decide_eq_false hall, Bool.false_and]

/-- The complete list is made of the items read so far and of those that remain. -/
def completed (S : Source σ α ε) (remaining : σ → List α × Option ε) (s : σ) : List α × Option ε :=
  ((remaining s).1.foldl (addNew key) (S.items s), (remaining s).2)

/-- What one step has done to the items and to what remains to be read. -/
structure Stepped (S : Source σ α ε) (I : σ → Prop) (remaining : σ → List α × Option ε) (after : ε → Option ε)
    (s : σ) (out : Except ε Bool) (s' : σ) : Prop where
  keeps : I s'
  remains : match out with
    | .ok true => ∃ l : List α,
      remaining s = (l ++ (remaining s').1, (remaining s').2) ∧ S.items s' = l.foldl (addNew key) (S.items s)
    | .ok false => S.items s' = S.items s ∧ remaining s = ([], none) ∧ remaining s' = ([], none)
    | .error e => S.items s' = S.items s ∧ remaining s = ([], some e) ∧ remaining s' = ([], after e)

theorem Foreseen.of_stepped {I : σ → Prop} {remaining : σ → List α × Option ε} {after : ε → Option ε}
    (h : ∀ {s s' out}, I s → S.next s = (out, s') → Stepped key S I remaining after s out s') :
    Foreseen S I (completed key S remaining) after where
  isPrefix := by
    intro s _
    simp only [completed, foldl_addNew]
    exact List.prefix_append _ _
  more := by
    intro s s' hs hnext
    obtain ⟨hs', l, hremaining, hitems⟩ := h hs hnext
    refine ⟨hs', ?_, ?_⟩
    · rw [completed, completed, hremaining, hitems, List.foldl_append]
    · rw [hitems, foldl_addNew]
      exact List.prefix_append _ _
  stop := by
    intro s s' hs hnext
    obtain ⟨hs', hitems, hremaining, hremaining'⟩ := h hs hnext
    rw [completed, completed, hremaining, hremaining', hitems]
    exact ⟨hs', rfl, rfl⟩
  fail := by
    intro s s' e hs hnext
    obtain ⟨hs', hitems, hremaining, hremaining'⟩ := h hs hnext
    rw [completed, completed, hremaining, hremaining', hitems]
    exact ⟨hs', rfl, rfl⟩

theorem completed_of_nil {remaining : σ → List α × Option ε} (h : S.items s = []) :
    completed key S remaining s = (firsts key (remaining s).1, (remaining s).2) := by
  rw [completed, h, foldl_addNew, List.nil_append]
  congr 1
  exact List.filter_eq_self.mpr fun a _ => decide_eq_true nofun

theorem find?_firsts (n : ν) (l : List α) :
    (firsts key l).find? (fun a => key a = n) = l.find? fun a => key a = n := by
  induction l with
  | nil => rfl
  | cons a l ih =>
    rw [firsts, List.find?_cons, List.find?_cons]
    by_cases ha : key a = n
    · rw [decide_eq_true ha]
    · have hother : ∀ b, decide (decide (key b ≠ key a) = true ∧ decide (key b = n) = true) = decide (key b = n) := by
        intro b
        have hne : key b = n → key b ≠ key a := fun hb heq => ha (heq.symm.trans hb)
        simp only [decide_eq_true_eq]
        exact decide_eq_decide.mpr ⟨fun h => h.2, fun hb => ⟨hne hb, hb⟩⟩
      rw [decide_eq_false ha, ← ih, List.find?_filter]
      simp only [hother]

end

/-! ### Requests -/

/-- What can be asked: an item by its key, for an enumerator, and for the next item of an enumerator. -/
inductive Request (ν : Type)
  | lookup (n : ν)
  | enumerate
  | next (enumerator : Nat)

section

variable [DecidableEq ν] (key : α → ν)

/-- An enumerator goes on if it has got an item. -/
def advance (enumerators : List Nat) (i n : Nat) : Except ε (Option α) → List Nat
  | .ok (some _) => enumerators.set i (n + 1)
  | _ => enumerators

/-- A source with enumerators: how many items each of them has had. -/
def Source.request (S : Source σ α ε) (s : σ × List Nat) : Request ν → Except ε (Option α) × (σ × List Nat)
  | .lookup n =>
    let (r, s') := S.find (fun a => key a = n) s.1
    (r, (s', s.2))
  | .enumerate => (.ok none, (s.1, s.2 ++ [0]))
  | .next i =>
    match s.2[i]? with
    | none => (.ok none, s)
    | some n =>
      let (r, s') := S.get n s.1
      (r, (s', advance s.2 i n r))

/-- The same for a list of all items, several of which may have the same key: the first one counts. -/
def request (all : List α) (after : ε → Option ε) (s : Option ε × List Nat) :
    Request ν → Except ε (Option α) × (Option ε × List Nat)
  | .lookup n =>
    let item := all.find? fun a => key a = n
    (answer item s.1, (ending after item s.1, s.2))
  | .enumerate => (.ok none, (s.1, s.2 ++ [0]))
  | .next i =>
    match s.2[i]? with
    | none => (.ok none, s)
    | some n =>
      let item := (firsts key all)[n]?
      (answer item s.1, (ending after item s.1, advance s.2 i n (answer item s.1)))

/-- The request is answered by the items that have been read. -/
def Source.Ready (S : Source σ α ε) (s : σ × List Nat) : Request ν → Prop
  | .lookup n => ∃ a, (S.items s.1).find? (fun a => key a = n) = some a
  | .enumerate => True
  | .next i => ∀ n, s.2[i]? = some n → ∃ a, (S.items s.1)[n]? = some a

/-- Sources that read the same answer a request alike, if it needs no reading or they are related for that. -/
theorem Same.request {T : Source τ α ε} {W R : σ → τ → Prop} (h : Same S T W R) {t : τ}
    (hW : W s t) (enumerators : List Nat) (a : Request ν) (hready : S.Ready key (s, enumerators) a ∨ R s t) :
    (S.request key (s, enumerators) a).1 = (T.request key (t, enumerators) a).1 ∧
      (S.request key (s, enumerators) a).2.2 = (T.request key (t, enumerators) a).2.2 ∧
        W (S.request key (s, enumerators) a).2.1 (T.request key (t, enumerators) a).2.1 := by
  cases a with
  | enumerate => exact ⟨rfl, rfl, hW⟩
  | lookup n =>
    rcases hready with ⟨a, hfound⟩ | hR
    · simp only [Source.request, Source.find_of_found hfound, Source.find_of_found (h.items hW ▸ hfound)]
      exact ⟨trivial, trivial, hW⟩
    · obtain ⟨hresult, hR'⟩ := h.find (fun a => key a = n) hR
      exact ⟨hresult, rfl, h.weaken hR'⟩
  | next i =>
    simp only [Source.request]
    rcases hi : enumerators[i]? with _ | n
    · exact ⟨rfl, rfl, hW⟩
    · rcases hready with hfound | hR
      · obtain ⟨a, hfound⟩ := hfound n hi
        simp only [Source.get_of_found hfound, Source.get_of_found (h.items hW ▸ hfound)]
        exact ⟨trivial, trivial, hW⟩
      · obtain ⟨hresult, hR'⟩ := h.get n hR
        exact ⟨hresult, congrArg (advance enumerators i n) hresult, h.weaken hR'⟩

/-- What a source answers, before anybody has asked for an enumerator. -/
def Source.answers (S : Source σ α ε) (s : σ) (requests : List (Request ν)) : List (Except ε (Option α)) :=
  Machine.outputs (S.request key) (s, []) requests

/-- The same for a list of all items after which reading ends or throws. -/
def answers (all : List α × Option ε) (after : ε → Option ε) (requests : List (Request ν)) :
    List (Except ε (Option α)) :=
  Machine.outputs (request key all.1 after) (all.2, []) requests

/-- **What has been read does not show.** Every sequence of requests is answered as if everything had been read in
advance. -/
theorem Foreseen.answers_eq {I : σ → Prop} {view : σ → List α × Option ε} {after : ε → Option ε}
    (h : Foreseen S I view after) {all : List α × Option ε} (hs : I s)
    (hview : view s = (firsts key all.1, all.2)) (requests : List (Request ν)) :
    S.answers key s requests = answers key all after requests := by
  refine (Machine.outputs_eq (R := fun s t => I s.1 ∧ view s.1 = (firsts key all.1, t.1) ∧ s.2 = t.2)
    (C := fun _ _ => True) ?_ ⟨hs, hview, rfl⟩ requests fun _ _ _ _ => trivial).1
  rintro ⟨s, enumerators⟩ ⟨e, _⟩ a ⟨hs, hview, rfl⟩ -
  cases a with
  | enumerate => exact ⟨rfl, hs, hview, rfl⟩
  | lookup n =>
    obtain ⟨hresult, hs', hview'⟩ := h.agrees_find (fun a => key a = n) hs
    rw [hview, find?_firsts] at hresult hview'
    exact ⟨hresult, hs', hview', rfl⟩
  | next i =>
    simp only [Source.request, request]
    rcases enumerators[i]? with _ | n
    · exact ⟨rfl, hs, hview, rfl⟩
    · obtain ⟨hresult, hs', hview'⟩ := h.agrees_get n hs
      rw [hview] at hresult hview'
      exact ⟨hresult, hs', hview', congrArg (advance enumerators i n) hresult⟩

end

end Lazy
