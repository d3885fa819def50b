import Afl.Base.Signal
import Afl.Lib.Run

/-!
# Raising signals

`raise` calls the handlers one after another. A handler may add and delete handlers of any signal, and raise signals,
before it returns, so the calls that are running form a stack, and between two steps of one the heap changes in any way.
-/

namespace Afl.Base

open Intrusive

variable {σ κ : Type}

/-- A call of `raise` that is running. `q` is its variable, `none` from the call of the last handler on. What it found
at its start and what it has called so far is kept for the statements. -/
structure RaiseFrame (σ : Type) where
  signal : σ
  q : Option Nat
  snapshot : List Nat
  called : List Nat

/-- The heap, and the running calls of `raise` from the innermost one out. -/
structure SignalState (σ κ : Type) where
  heap : SignalHeap σ κ
  frames : List (RaiseFrame σ)
  faulted : Bool

/-- What a program does with its signals and connections. `ret` is the return of the handler that runs. -/
inductive SignalAction (σ κ : Type)
  | constructSignal (s : σ)
  | destroySignal (s : σ)
  | add (s : σ)
  | construct (c : κ) (h : Option (SignalHandler σ))
  | assign (c : κ) (h : Option (SignalHandler σ))
  | disconnect (c : κ)
  | destroyConnection (c : κ)
  | raise (s : σ)
  | ret

namespace SignalState

def empty : SignalState σ κ := ⟨SignalHeap.empty, [], false⟩

/-- One round of the loop of `raise`, and the return statement after it: `q` moves on, and the handler it pointed at is
called. -/
def advance (H : SignalHeap σ κ) (f : RaiseFrame σ) (n : Nat) : Option (RaiseFrame σ) := do
  guard (H.live ⟨f.signal, n⟩ = true)
  some { f with q := (H.links f.signal).next n, called := f.called ++ [n] }

/-- `raise` up to the first call. -/
def raise (st : SignalState σ κ) (s : σ) : Option (SignalState σ κ) :=
  match (st.heap.links s).first with
  | none => some st
  | some n => do
    let f ← advance st.heap ⟨s, none, (st.heap.links s).walk st.heap.fresh, []⟩ n
    some { st with frames := f :: st.frames }

/-- The handler that runs returns to its `raise`. -/
def ret (st : SignalState σ κ) : Option (SignalState σ κ) :=
  match st.frames with
  | [] => some st
  | f :: rest =>
    match f.q with
    | none => some { st with frames := rest }
    | some n => do
      let f' ← advance st.heap f n
      some { st with frames := f' :: rest }

variable [DecidableEq σ] [DecidableEq κ]

def onHeap (st : SignalState σ κ) (H : Option (SignalHeap σ κ)) : Option (SignalState σ κ) :=
  H.map fun H => { st with heap := H }

def exec (st : SignalState σ κ) : SignalAction σ κ → Option (SignalState σ κ)
  | .constructSignal s => st.onHeap (some (st.heap.constructSignal s))
  | .destroySignal s => st.onHeap (st.heap.destroySignal s)
  | .add s => st.onHeap (st.heap.addNewClosure s)
  | .construct c h => st.onHeap (st.heap.construct c h)
  | .assign c h => st.onHeap (st.heap.assign c h)
  | .disconnect c => st.onHeap (st.heap.disconnect c)
  | .destroyConnection c => st.onHeap (st.heap.destroyConnection c)
  | .raise s => st.raise s
  | .ret => st.ret

/-- A pointer that may be given to a connection: null, or what `add` has returned and no connection has taken. -/
def Unclaimed (H : SignalHeap σ κ) (h : Option (SignalHandler σ)) : Prop :=
  ∀ p ∈ h, H.live p = true ∧ H.pBacklink p = none

instance (H : SignalHeap σ κ) (h : Option (SignalHandler σ)) : Decidable (Unclaimed H h) :=
  inferInstanceAs (Decidable (∀ p ∈ h, _))

/-- The documented use: objects are made before they are used, and used while they exist. -/
def Allowed (st : SignalState σ κ) : SignalAction σ κ → Prop
  | .constructSignal s => st.heap.alive s = false
  | .destroySignal s => st.heap.alive s = true
  | .add s => st.heap.alive s = true
  | .construct c h => st.heap.built c = false ∧ Unclaimed st.heap h
  | .assign c h => st.heap.built c = true ∧ (st.heap.handler c ≠ h → Unclaimed st.heap h)
  | .disconnect c => st.heap.built c = true
  | .destroyConnection c => st.heap.built c = true
  | .raise s => st.heap.alive s = true
  | .ret => st.frames.isEmpty = false

instance (st : SignalState σ κ) : (a : SignalAction σ κ) → Decidable (Allowed st a)
  | .constructSignal _ => inferInstanceAs (Decidable (_ = _))
  | .destroySignal _ => inferInstanceAs (Decidable (_ = _))
  | .add _ => inferInstanceAs (Decidable (_ = _))
  | .construct _ _ => inferInstanceAs (Decidable (_ ∧ _))
  | .assign _ _ => inferInstanceAs (Decidable (_ ∧ _))
  | .disconnect _ => inferInstanceAs (Decidable (_ = _))
  | .destroyConnection _ => inferInstanceAs (Decidable (_ = _))
  | .raise _ => inferInstanceAs (Decidable (_ = _))
  | .ret => inferInstanceAs (Decidable (_ = _))

/-- An operation without result leaves a faulted state, after which nothing is said. -/
def step (st : SignalState σ κ) (a : SignalAction σ κ) : Option (SignalState σ κ) :=
  if st.faulted = false ∧ st.Allowed a then some ((st.exec a).getD { st with faulted := true }) else none

end SignalState

/-! ## Running calls -/

namespace RaiseFrame

/-- What is known of a running call while its signal has the handlers `l`. Before the last call, the handlers after
the one `q` points at are those of the snapshot that are still there, unless that one was deleted; all handlers up to
it were called or are gone. From the last call on, every handler of the snapshot was called or is gone. -/
structure Ok (f : RaiseFrame σ) (fresh : Nat) (l : List Nat) : Prop where
  nodup : f.snapshot.Nodup
  bound : ∀ n ∈ f.snapshot, n < fresh
  mem : ∀ n ∈ f.q, n ∈ f.snapshot
  pending : ∀ n, f.q = some n → n ∈ l → ∃ done rest before, f.snapshot = done ++ n :: rest ∧
    l = before ++ n :: rest.filter (fun m => m ∈ l) ∧ f.called.Sublist done ∧ ∀ m ∈ done, m ∈ l → m ∈ f.called
  last : f.q = none → f.called.Sublist f.snapshot ∧ ∀ m ∈ f.snapshot, m ∈ l → m ∈ f.called

variable {f : RaiseFrame σ} {fresh fresh' : Nat} {l : List Nat}

theorem Ok.filter (h : f.Ok fresh l) (hle : fresh ≤ fresh') (p : Nat → Bool) : f.Ok fresh' (l.filter p) := by
  refine ⟨h.nodup, fun n hn => Nat.lt_of_lt_of_le (h.bound n hn) hle, h.mem, fun n hq hn => ?_, fun hq => ?_⟩
  · obtain ⟨hn, hp⟩ := List.mem_filter.mp hn
    obtain ⟨done, rest, before, hsnapshot, hl, hsub, hdone⟩ := h.pending n hq hn
    refine ⟨done, rest, before.filter p, hsnapshot, ?_, hsub, fun m hm hml => ?_⟩
    · have hrest : rest.filter (fun m => m ∈ l.filter p) = (rest.filter fun m => m ∈ l).filter p := by
        rw [List.filter_filter]
        apply List.filter_congr
        intro m _
        simp [List.mem_filter, Bool.and_comm]
      rw [hrest]
      conv_lhs => rw [hl]
      rw [List.filter_append, List.filter_cons_of_pos hp]
    · exact hdone m hm (List.mem_filter.mp hml).1
  · obtain ⟨hsub, hall⟩ := h.last hq
    exact ⟨hsub, fun m hm hml => hall m hm (List.mem_filter.mp hml).1⟩

theorem Ok.cons (h : f.Ok fresh l) (hlt : fresh < fresh') : f.Ok fresh' (fresh :: l) := by
  have hold : ∀ m ∈ f.snapshot, m ∈ fresh :: l → m ∈ l := by
    intro m hm hml
    rcases List.mem_cons.mp hml with rfl | hml
    · exact absurd (h.bound m hm) (Nat.lt_irrefl _)
    · exact hml
  refine ⟨h.nodup, fun n hn => Nat.lt_trans (h.bound n hn) hlt, h.mem, fun n hq hn => ?_, fun hq => ?_⟩
  · obtain ⟨done, rest, before, hsnapshot, hl, hsub, hdone⟩ := h.pending n hq (hold n (h.mem n hq) hn)
    have hmem : ∀ m, m ∈ done ∨ m ∈ rest → m ∈ f.snapshot := by
      intro m hm
      rw [hsnapshot, List.mem_append, List.mem_cons]
      exact hm.imp_right .inr
    refine ⟨done, rest, fresh :: before, hsnapshot, ?_, hsub, fun m hm hml => ?_⟩
    · have hrest : rest.filter (fun m => m ∈ fresh :: l) = rest.filter fun m => m ∈ l := by
        apply List.filter_congr
        intro m hm
        have hiff : m ∈ fresh :: l ↔ m ∈ l := ⟨hold m (hmem m (.inr hm)), List.mem_cons_of_mem _⟩
        simp only [hiff]
      rw [hrest, List.cons_append, ← hl]
    · exact hdone m hm (hold m (hmem m (.inl hm)) hml)
  · obtain ⟨hsub, hall⟩ := h.last hq
    exact ⟨hsub, fun m hm hml => hall m hm (hold m hm hml)⟩

theorem Ok.round (h : f.Ok fresh l) (hl : l.Nodup) {n : Nat} (hq : f.q = some n) {before after : List Nat}
    (hsplit : l = before ++ n :: after) :
    Ok { f with q := after.head?, called := f.called ++ [n] } fresh l := by
  obtain ⟨done, rest, before', hsnapshot, hrest, hsub, hdone⟩ := h.pending n hq (by simp [hsplit])
  have hafter : after = rest.filter fun m => m ∈ l := by
    have hboth : before ++ n :: after = before' ++ n :: rest.filter (fun m => m ∈ l) := hsplit.symm.trans hrest
    have hnotMem : n ∉ before ∧ n ∉ after := by
      rw [hsplit, List.perm_middle.nodup_iff, List.nodup_cons, List.mem_append] at hl
      exact not_or.mp hl.1
    exact ((List.append_cons_inj_of_notMem hnotMem.1 hnotMem.2).mp hboth).2.2
  have hcalled : (f.called ++ [n]).Sublist (done ++ [n]) := hsub.append (List.Sublist.refl _)
  have hdone' : ∀ m ∈ done ++ [n], m ∈ l → m ∈ f.called ++ [n] := by
    intro m hm hml
    rcases List.mem_append.mp hm with hm | hm
    · exact List.mem_append_left _ (hdone m hm hml)
    · exact List.mem_append_right _ hm
  refine ⟨h.nodup, h.bound, fun m hm => ?_, fun m hm hml => ?_, fun hnone => ?_⟩
  · have hmem : m ∈ rest := by
      have hm := List.mem_of_head? hm
      rw [hafter] at hm
      exact (List.mem_filter.mp hm).1
    rw [hsnapshot]
    simp [hmem]
  · obtain ⟨after', rfl⟩ : ∃ after', after = m :: after' := List.head?_eq_some_iff.mp hm
    obtain ⟨gone, rest', rfl, hgone, -, hrest'⟩ := List.filter_eq_cons_iff.mp hafter.symm
    refine ⟨done ++ [n] ++ gone, rest', before ++ [n], ?_, ?_, ?_, ?_⟩
    · simp [hsnapshot]
    · rw [hrest']
      simpa using hsplit
    · exact hcalled.trans (List.sublist_append_left _ _)
    · intro k hk hkl
      rcases List.mem_append.mp hk with hk | hk
      · exact hdone' k hk hkl
      · exact absurd (decide_eq_true hkl) (hgone k hk)
  · have hnil : after = [] := List.head?_eq_none_iff.mp hnone
    rw [hnil, eq_comm, List.filter_eq_nil_iff] at hafter
    have hsplit' : f.snapshot = (done ++ [n]) ++ rest := by simp [hsnapshot]
    refine ⟨?_, fun m hm hml => ?_⟩
    · rw [hsplit']
      exact hcalled.trans (List.sublist_append_left _ _)
    · rw [hsplit'] at hm
      rcases List.mem_append.mp hm with hm | hm
      · exact hdone' m hm hml
      · exact absurd (decide_eq_true hml) (hafter m hm)

end RaiseFrame

namespace SignalState

/-- What holds in every state a program reaches. -/
def Inv (st : SignalState σ κ) (order : σ → List Nat) : Prop :=
  st.heap.Ok order ∧ ∀ f ∈ st.frames, f.Ok st.heap.fresh (order f.signal)

/-- A running `raise` is going to call `h` next. -/
def Pending (st : SignalState σ κ) (h : SignalHandler σ) : Prop :=
  ∃ f ∈ st.frames, f.signal = h.signal ∧ f.q = some h.block

variable {st : SignalState σ κ} {order : σ → List Nat}

/-- A call that has just called a handler: the one that `q` points at is there. -/
def Goes (st : SignalState σ κ) (order : σ → List Nat) (f : RaiseFrame σ) : Prop :=
  f.Ok st.heap.fresh (order f.signal) ∧ ∀ m ∈ f.q, m ∈ order f.signal

theorem Inv.advance (hinv : st.Inv order) {f : RaiseFrame σ} (hf : f.Ok st.heap.fresh (order f.signal)) {n : Nat}
    (hq : f.q = some n) (hlive : st.heap.live ⟨f.signal, n⟩ = true) :
    ∃ f', advance st.heap f n = some f' ∧ st.Goes order f' := by
  have hlisted := hinv.1.listed f.signal
  obtain ⟨before, after, hsplit⟩ := List.append_of_mem ((hinv.1.live _).mp hlive)
  refine ⟨{ f with q := after.head?, called := f.called ++ [n] }, ?_, hf.round hlisted.nodup hq hsplit, ?_⟩
  · rw [hsplit] at hlisted
    simp [SignalState.advance, guard, hlive, hlisted.next_eq]
  · intro m hm
    rw [hsplit]
    exact List.mem_append_right _ (List.mem_cons_of_mem _ (List.mem_of_mem_head? hm))

theorem Inv.raise (hinv : st.Inv order) (s : σ) :
    st.raise s = some st ∨ ∃ f, st.raise s = some { st with frames := f :: st.frames } ∧ st.Goes order f := by
  have hlisted := hinv.1.listed s
  have hwalk : (st.heap.links s).walk st.heap.fresh = order s := hlisted.walk_eq (hinv.1.length_le s)
  rcases horder : order s with _ | ⟨n, l⟩
  · have hfirst : (st.heap.links s).first = none := by rw [hinv.1.first_eq, horder]; rfl
    exact .inl (by rw [SignalState.raise, hfirst])
  · have hfirst : (st.heap.links s).first = some n := by rw [hinv.1.first_eq, horder]; rfl
    have hlive : st.heap.live ⟨s, n⟩ = true := (hinv.1.live _).mpr (by simp [horder])
    have hstart : RaiseFrame.Ok ⟨s, some n, order s, []⟩ st.heap.fresh (order s) := by
      refine ⟨hlisted.nodup, hinv.1.bound s, fun m hm => ?_, fun m hm _ => ?_, fun h => absurd h (by simp)⟩
      · cases hm
        simp [horder]
      · cases hm
        refine ⟨[], l, [], by simp [horder], ?_, List.Sublist.refl _, fun m hm => absurd hm List.not_mem_nil⟩
        have hall : l.filter (fun m => m ∈ order s) = l :=
          List.filter_eq_self.mpr fun m hm => by simp [horder, hm]
        rw [hall, horder, List.nil_append]
    obtain ⟨f, heq, hgoes⟩ := hinv.advance hstart rfl hlive
    refine .inr ⟨f, ?_, hgoes⟩
    have hsame : SignalState.advance st.heap ⟨s, none, order s, []⟩ n =
        SignalState.advance st.heap ⟨s, some n, order s, []⟩ n := rfl
    rw [SignalState.raise, hfirst]
    simp [hwalk, hsame, heq]

theorem Inv.empty : Inv (SignalState.empty : SignalState σ κ) fun _ => [] :=
  ⟨SignalHeap.Ok.empty, fun _ hf => absurd hf List.not_mem_nil⟩

theorem mem_of_evolves {H H' : SignalHeap σ κ} {order' : σ → List Nat} (hev : H.Evolves H' order order') {s : σ}
    {n : Nat} (hn : n < H.fresh) (hmem : n ∈ order' s) : n ∈ order s := by
  rcases hev.2 s with ⟨p, heq⟩ | ⟨heq, -⟩
  · rw [heq] at hmem
    exact (List.mem_filter.mp hmem).1
  · rw [heq, List.mem_cons] at hmem
    rcases hmem with rfl | hmem
    · exact absurd hn (Nat.lt_irrefl _)
    · exact hmem

theorem frame_evolve {H H' : SignalHeap σ κ} {order' : σ → List Nat} (hev : H.Evolves H' order order')
    {f : RaiseFrame σ} (hf : f.Ok H.fresh (order f.signal)) : f.Ok H'.fresh (order' f.signal) := by
  rcases hev.2 f.signal with ⟨p, heq⟩ | ⟨heq, hlt⟩
  · rw [heq]
    exact hf.filter hev.1 p
  · rw [heq]
    exact hf.cons hlt

variable [DecidableEq σ] [DecidableEq κ]

/-- A handler returns to a loop whose next handler was deleted. -/
def Cut (st : SignalState σ κ) (a : SignalAction σ κ) : Prop :=
  a = .ret ∧ ∃ f rest n, st.frames = f :: rest ∧ f.q = some n ∧ st.heap.live ⟨f.signal, n⟩ = false

/-- How the running calls go on: one of them may have called another handler, and one may have returned, but none that
has lost its next handler. -/
structure Continues (st : SignalState σ κ) (order : σ → List Nat) (frames : List (RaiseFrame σ)) : Prop where
  goes : ∀ f ∈ frames, f ∈ st.frames ∨ st.Goes order f
  stays : ∀ f ∈ st.frames, ∀ n, f.q = some n → st.heap.live ⟨f.signal, n⟩ = false → f ∈ frames
  returned : ∀ f, st.frames = f :: frames → f.q = none

variable {a : SignalAction σ κ}

/-- **One step.** An allowed action changes the heap and keeps the invariant, or starts, continues or ends a `raise`;
the only action without result is the return to a loop whose next handler was deleted. -/
theorem Inv.exec_cases (hinv : st.Inv order) (ha : st.Allowed a) :
    (¬st.Cut a ∧ ∃ H' order', st.exec a = some { st with heap := H' } ∧ H'.Ok order' ∧
      st.heap.Evolves H' order order') ∨
    (¬st.Cut a ∧ ∃ frames, st.exec a = some { st with frames := frames } ∧ st.Continues order frames) ∨
    (st.Cut a ∧ st.exec a = none) := by
  have hheap : ∀ r, SignalHeap.Works st.heap order r → st.exec a = st.onHeap r → a ≠ .ret →
      ¬st.Cut a ∧ ∃ H' order', st.exec a = some { st with heap := H' } ∧ H'.Ok order' ∧
        st.heap.Evolves H' order order' := by
    rintro r ⟨H', order', hr, hok', hev⟩ heq hne
    rw [hr] at heq
    exact ⟨fun h => hne h.1, H', order', heq, hok', hev⟩
  cases a with
  | constructSignal s => exact .inl (hheap _ (hinv.1.constructSignal ha) rfl (by simp))
  | destroySignal s => exact .inl (hheap _ (hinv.1.destroySignal s) rfl (by simp))
  | add s => exact .inl (hheap _ (hinv.1.addNewClosure ha) rfl (by simp))
  | construct c h => exact .inl (hheap _ (hinv.1.construct ha.1 ha.2) rfl (by simp))
  | assign c h => exact .inl (hheap _ (hinv.1.assign ha.1 ha.2) rfl (by simp))
  | disconnect c => exact .inl (hheap _ (hinv.1.disconnect c) rfl (by simp))
  | destroyConnection c => exact .inl (hheap _ (hinv.1.destroyConnection c) rfl (by simp))
  | raise s =>
    rcases hinv.raise s with heq | ⟨f, heq, hgoes⟩
    · have hev : st.heap.Evolves st.heap order order := ⟨Nat.le_refl _, fun t => .inl ⟨_, SignalHeap.filter_true _⟩⟩
      exact .inl ⟨by simp [Cut], st.heap, order, heq, hinv.1, hev⟩
    · refine .inr (.inl ⟨by simp [Cut], _, heq, fun g hg => ?_, fun g hg _ _ _ => List.mem_cons_of_mem _ hg, ?_⟩)
      · rcases List.mem_cons.mp hg with rfl | hg
        · exact .inr hgoes
        · exact .inl hg
      · exact fun g hg => absurd (congrArg List.length hg) (by simp only [List.length_cons]; omega)
  | ret =>
    rcases hframes : st.frames with _ | ⟨f, rest⟩
    · rw [Allowed, hframes] at ha
      cases ha
    have hmem : ∀ g, g ∈ st.frames ↔ g = f ∨ g ∈ rest := fun g => by rw [hframes, List.mem_cons]
    have hcut : st.Cut .ret ↔ ∃ n, f.q = some n ∧ st.heap.live ⟨f.signal, n⟩ = false := by
      simp [Cut, hframes]
    rw [hcut]
    rcases hq : f.q with _ | n
    · refine .inr (.inl ⟨by simp, rest, ?_, fun g hg => .inl ((hmem g).mpr (.inr hg)), fun g hg m hm _ => ?_,
        fun g hg => ?_⟩)
      · simp only [exec, SignalState.ret, hframes, hq]
      · rcases (hmem g).mp hg with rfl | hg
        · rw [hq] at hm
          cases hm
        · exact hg
      · rw [hframes] at hg
        rw [← (List.cons.inj hg).1, hq]
    · rcases hlive : st.heap.live ⟨f.signal, n⟩ with _ | _
      · have hnone : SignalState.advance st.heap f n = none := by
          rw [SignalState.advance, guard, if_neg (by rw [hlive]; exact Bool.false_ne_true)]
          rfl
        refine .inr (.inr ⟨⟨n, rfl, hlive⟩, ?_⟩)
        simp only [exec, SignalState.ret, hframes, hq, hnone, Option.bind_eq_bind, Option.bind_none]
      · obtain ⟨f', heq, hgoes⟩ := hinv.advance (hinv.2 f ((hmem f).mpr (.inl rfl))) hq hlive
        refine .inr (.inl ⟨by simp [hlive], f' :: rest, ?_, fun g hg => ?_, fun g hg m hm hdead => ?_, fun g hg => ?_⟩)
        · simp [exec, SignalState.ret, hframes, hq, heq]
        · rcases List.mem_cons.mp hg with rfl | hg
          · exact .inr hgoes
          · exact .inl ((hmem g).mpr (.inr hg))
        · rcases (hmem g).mp hg with rfl | hg
          · rw [← Option.some.inj (hq.symm.trans hm), hlive] at hdead
            cases hdead
          · exact List.mem_cons_of_mem _ hg
        · rw [hframes] at hg
          exact absurd (congrArg List.length hg) (by simp)

theorem step_eq {st st' : SignalState σ κ} (h : step st a = some st') :
    st.faulted = false ∧ st.Allowed a ∧ st' = (st.exec a).getD { st with faulted := true } := by
  rw [step, Option.ite_none_right_eq_some] at h
  exact ⟨h.1.1, h.1.2, (Option.some.inj h.2).symm⟩

variable {st' : SignalState σ κ}

/-- The step lemma: the invariant is kept, and a fault is a return to a loop whose next handler was deleted. -/
theorem Inv.step (hinv : st.Inv order) (h : step st a = some st') :
    (∃ order', st'.Inv order') ∧ (st'.faulted = true ↔ st.Cut a) := by
  obtain ⟨hfaulted, hallowed, rfl⟩ := step_eq h
  have hsound : st.faulted ≠ true := by simp [hfaulted]
  rcases hinv.exec_cases hallowed with ⟨hcut, H', order', heq, hok', hev⟩ | ⟨hcut, frames, heq, hcont⟩ | ⟨hcut, heq⟩
  all_goals rw [heq]
  · exact ⟨⟨order', hok', fun f hf => frame_evolve hev (hinv.2 f hf)⟩, iff_of_false hsound hcut⟩
  · refine ⟨⟨order, hinv.1, fun f hf => ?_⟩, iff_of_false hsound hcut⟩
    rcases hcont.goes f hf with hf | hgoes
    · exact hinv.2 f hf
    · exact hgoes.1
  · exact ⟨⟨order, hinv⟩, iff_of_true rfl hcut⟩

theorem exists_inv {acts : List (SignalAction σ κ)} {t : Run.Taken (SignalState σ κ) (SignalAction σ κ)}
    (ht : t ∈ Run.trace step SignalState.empty acts) : (∃ order, t.pre.Inv order) ∧ ∃ order, t.post.Inv order :=
  Run.forall_post (I := fun st => ∃ order, st.Inv order) (fun h hinv => (hinv.choose_spec.step h).1)
    ⟨_, Inv.empty⟩ acts t ht

/-- **Links and back links.** In every state that a program reaches, whatever its handlers do while they run, the list
of each signal is linked both ways and has exactly the live handlers of the signal, a connection and its handler point
at each other, and no assertion has failed; only the loop of a `raise` can read a deleted handler, and it does exactly
when a handler returns after the next one was deleted. -/
theorem links_ok_along_run (acts : List (SignalAction σ κ)) :
    ∀ t ∈ Run.trace step SignalState.empty acts,
      (∃ order, t.post.heap.Ok order) ∧ (t.post.faulted = true ↔ t.pre.Cut t.act) := by
  intro t ht
  obtain ⟨⟨order, hpre⟩, order', hpost⟩ := exists_inv ht
  exact ⟨⟨order', hpost.1⟩, (hpre.step (Run.step_of_mem_trace ht)).2⟩

def twoCalls : List (SignalAction Unit Unit) := [.constructSignal (), .add (), .add (), .raise (), .ret, .ret]

theorem links_ok_along_run_two : ∃ t ∈ Run.trace step SignalState.empty twoCalls, t.act = .ret ∧
    (∃ order, t.post.heap.Ok order) ∧ (t.post.faulted = true ↔ t.pre.Cut t.act) :=
  have ht : 5 < (Run.trace step SignalState.empty twoCalls).length := by decide
  ⟨_, List.getElem_mem ht, rfl, links_ok_along_run twoCalls _ (List.getElem_mem ht)⟩

/-! ### What a raise calls -/

/-- **What a `raise` calls.** When a `raise` returns, it has called handlers of the list as it was at the start only,
each at most once and from the newest to the oldest, and every one of them that still exists; handlers that were added
since are not called, whatever the handlers did in the meantime. -/
theorem raise_calls (acts : List (SignalAction σ κ)) :
    ∀ t ∈ Run.trace step SignalState.empty acts, ∀ f, t.pre.frames = f :: t.post.frames →
      f.called.Sublist f.snapshot ∧ f.snapshot.Nodup ∧
        ∀ n ∈ f.snapshot, t.post.heap.live ⟨f.signal, n⟩ = true → n ∈ f.called := by
  intro t ht f hpop
  obtain ⟨⟨order, hinv⟩, -⟩ := exists_inv ht
  obtain ⟨hfaulted, hallowed, hpost⟩ := step_eq (Run.step_of_mem_trace ht)
  have hlength : t.pre.frames.length = t.post.frames.length + 1 := by rw [hpop, List.length_cons]
  have hf : f.Ok t.pre.heap.fresh (order f.signal) := hinv.2 f (by simp [hpop])
  rcases hinv.exec_cases hallowed with ⟨-, H', order', heq, -⟩ | ⟨-, frames, heq, hcont⟩ | ⟨-, heq⟩
  all_goals rw [heq, Option.getD] at hpost
  · rw [hpost] at hlength
    exact absurd hlength (by simp)
  · rw [hpost] at hpop
    obtain ⟨hsub, hall⟩ := hf.last (hcont.returned f hpop)
    refine ⟨hsub, hf.nodup, fun n hn hlive => hall n hn ?_⟩
    rw [hpost] at hlive
    exact (hinv.1.live _).mp hlive
  · rw [hpost] at hlength
    exact absurd hlength (by simp)

theorem raise_calls_two : ∃ t ∈ Run.trace step SignalState.empty twoCalls, ∃ f, t.pre.frames = f :: t.post.frames ∧
    f.called = [1, 0] ∧ f.called.Sublist f.snapshot ∧ f.snapshot.Nodup ∧
      ∀ n ∈ f.snapshot, t.post.heap.live ⟨f.signal, n⟩ = true → n ∈ f.called :=
  have ht : 5 < (Run.trace step SignalState.empty twoCalls).length := by decide
  ⟨_, List.getElem_mem ht, _, rfl, rfl, raise_calls twoCalls _ (List.getElem_mem ht) _ rfl⟩

/-! ### Which programs are safe -/

/-- A step that deletes a handler which a running `raise` is going to call next. -/
def DeletesPending (t : Run.Taken (SignalState σ κ) (SignalAction σ κ)) : Prop :=
  ∃ h, t.pre.Pending h ∧ t.pre.heap.live h = true ∧ t.post.heap.live h = false

/-- No running `raise` has lost its next handler. -/
def Secure (st : SignalState σ κ) : Prop := ∀ h, st.Pending h → st.heap.live h = true

/-- Some running `raise` has lost its next handler. -/
def Doomed (st : SignalState σ κ) : Prop := ∃ h, st.Pending h ∧ h.block < st.heap.fresh ∧ st.heap.live h = false

theorem Inv.secure_step (hinv : st.Inv order)
    (h : SignalState.step st a = some st') (hsecure : st.Secure) (hkeep : ¬DeletesPending ⟨st, a, st'⟩) :
    st'.Secure ∧ st'.faulted = false := by
  obtain ⟨hfaulted, hallowed, rfl⟩ := step_eq h
  rcases hinv.exec_cases hallowed with ⟨-, H', order', heq, -⟩ | ⟨-, frames, heq, hcont⟩ | ⟨hcut, -⟩
  · rw [heq] at hkeep ⊢
    refine ⟨fun k hk => ?_, hfaulted⟩
    by_contra hlive
    exact hkeep ⟨k, hk, hsecure k hk, by simpa using hlive⟩
  · rw [heq]
    refine ⟨fun k hk => ?_, hfaulted⟩
    obtain ⟨g, hg, hs, hb⟩ := hk
    rcases hcont.goes g hg with hg | hgoes
    · exact hsecure k ⟨g, hg, hs, hb⟩
    · apply (hinv.1.live k).mpr
      rw [← hs]
      exact hgoes.2 _ hb
  · obtain ⟨-, f, rest, n, hf, hq, hdead⟩ := hcut
    have hlive := hsecure ⟨f.signal, n⟩ ⟨f, by simp [hf], rfl, hq⟩
    rw [hdead] at hlive
    cases hlive

theorem Inv.doomed_step (hinv : st.Inv order)
    (h : SignalState.step st a = some st') (hdoomed : st.Doomed) : st'.Doomed := by
  obtain ⟨-, hallowed, rfl⟩ := step_eq h
  obtain ⟨k, ⟨g, hg, hs, hb⟩, hlt, hdead⟩ := hdoomed
  rcases hinv.exec_cases hallowed with ⟨-, H', order', heq, hok', hev⟩ | ⟨-, frames, heq, hcont⟩ | ⟨-, heq⟩
  all_goals rw [heq]
  · refine ⟨k, ⟨g, hg, hs, hb⟩, Nat.lt_of_lt_of_le hlt hev.1, ?_⟩
    by_contra hlive
    have hmem := mem_of_evolves hev hlt ((hok'.live k).mp (by simpa using hlive))
    rw [(hinv.1.live k).mpr hmem] at hdead
    cases hdead
  · exact ⟨k, ⟨g, hcont.stays g hg _ hb (by rw [hs]; exact hdead), hs, hb⟩, hlt, hdead⟩
  · exact ⟨k, ⟨g, hg, hs, hb⟩, hlt, hdead⟩

theorem Inv.doomed_of_deletesPending (hinv : st.Inv order)
    (h : SignalState.step st a = some st') (hdel : DeletesPending ⟨st, a, st'⟩) : st'.Doomed := by
  obtain ⟨-, hallowed, rfl⟩ := step_eq h
  obtain ⟨k, hpending, hlive, hdead⟩ := hdel
  have hunchanged : ∀ st' : SignalState σ κ, st'.heap = st.heap → st'.heap.live k = false → False := by
    intro st' heap hd
    rw [heap, hlive] at hd
    cases hd
  rcases hinv.exec_cases hallowed with ⟨-, H', order', heq, -, hev⟩ | ⟨-, frames, heq, -⟩ | ⟨-, heq⟩
  all_goals rw [heq] at hdead ⊢
  · have hlt := hinv.1.bound _ _ ((hinv.1.live k).mp hlive)
    exact ⟨k, hpending, Nat.lt_of_lt_of_le hlt hev.1, hdead⟩
  all_goals exact (hunchanged _ rfl hdead).elim

/-- **Safe programs.** A program whose calls of `raise` have all returned, or which has touched a deleted handler, has
done the latter exactly if some step deleted the handler that a running `raise` was going to call next. Deleting any
other handler, the running one and all that were called already included, does not lead to it. -/
theorem faulted_iff {acts : List (SignalAction σ κ)} {st : SignalState σ κ}
    (h : Run.final step SignalState.empty acts = some st) (hend : st.frames = [] ∨ st.faulted = true) :
    st.faulted = true ↔ ∃ t ∈ Run.trace step SignalState.empty acts, DeletesPending t := by
  constructor
  · intro hfaulted
    by_contra hnone
    have hall : ∀ t ∈ Run.trace step SignalState.empty acts, ∀ st', SignalState.step t.pre t.act = some st' →
        ¬DeletesPending ⟨t.pre, t.act, st'⟩ := by
      intro t ht st' hst' hdel
      have hpost : t.post = st' := Option.some.inj ((Run.step_of_mem_trace ht).symm.trans hst')
      exact hnone ⟨t, ht, by rwa [← hpost] at hdel⟩
    have hsafe := Run.of_final_where (I := fun st : SignalState σ κ => (∃ order, st.Inv order) ∧ st.Secure ∧
      st.faulted = false) (C := fun st a => ∀ st', SignalState.step st a = some st' → ¬DeletesPending ⟨st, a, st'⟩)
      (fun {s a s'} hs hi hc => by
        obtain ⟨⟨order, hinv⟩, hsecure, -⟩ := hi
        exact ⟨(hinv.step hs).1, hinv.secure_step hs hsecure (hc s' hs)⟩)
      ⟨⟨_, Inv.empty⟩, fun k ⟨g, hg, _⟩ => absurd hg List.not_mem_nil, rfl⟩ hall h
    rw [hsafe.2.2] at hfaulted
    cases hfaulted
  · rintro ⟨t, ht, hdel⟩
    obtain ⟨⟨order, hinv⟩, hpost⟩ := exists_inv ht
    have hdoomed := hinv.doomed_of_deletesPending (Run.step_of_mem_trace ht) hdel
    have hfinal := Run.of_mem_trace_final (I := fun st : SignalState σ κ => (∃ order, st.Inv order) ∧ st.Doomed)
      (fun {s a s'} hs hi => by
        obtain ⟨⟨order, hinv⟩, hd⟩ := hi
        exact ⟨(hinv.step hs).1, hinv.doomed_step hs hd⟩) ht ⟨hpost, hdoomed⟩ h
    obtain ⟨-, k, ⟨g, hg, -⟩, -⟩ := hfinal
    refine hend.resolve_left fun hnil => ?_
    rw [hnil] at hg
    exact absurd hg List.not_mem_nil

def nextDeleted : List (SignalAction Unit Unit) :=
  [.constructSignal (), .add (), .construct () (some ⟨(), 0⟩), .add (), .raise (), .disconnect (), .ret]

theorem faulted_iff_next : ∃ st, Run.final step SignalState.empty nextDeleted = some st ∧
    (st.faulted = true ↔ ∃ t ∈ Run.trace step SignalState.empty nextDeleted, DeletesPending t) :=
  ⟨_, rfl, faulted_iff (show Run.final step SignalState.empty nextDeleted = some _ from rfl) (.inr rfl)⟩

end SignalState

end Afl.Base
