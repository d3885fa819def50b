import Afl.Lib.Run
import Mathlib.Algebra.Group.Nat.Defs
import Mathlib.Tactic.SplitIfs

/-!
# A window into a stream

A `LimitedStream` gives access to the bytes `[origin, origin + length)` of a parent stream. It never asks the parent for
its position, except after an exception: it keeps `m_position` in step with the parent and trims every request by it.
What the parent answers is part of an action: the bytes it transfers, whether it throws, and whether it can seek.
-/

namespace Afl.Io

open Run

/-- The parent: its position, and the ranges of bytes (start and count) that it has read, written or mapped. -/
structure Parent where
  pos : UInt64
  accessed : List (Nat × Nat)

/-- Access a number of bytes at the current position. The contract allows at most as many as requested, and a
position has to fit into a `FileSize_t`. -/
def Parent.access (p : Parent) (limit count : Nat) : Option Parent :=
  if count ≤ limit ∧ p.pos.toNat + count < 2 ^ 64 then
    some ⟨p.pos + UInt64.ofNat count, p.accessed ++ [(p.pos.toNat, count)]⟩
  else none

/-- `m_origin` and `m_length`, which never change. -/
structure Limits where
  origin : UInt64
  length : UInt64

/-- `LimitedStream::nil`, for an origin or length that is not known. -/
def LimitedStream.nil : UInt64 := 0xFFFFFFFFFFFFFFFF

structure LimitedStream where
  parent : Parent
  position : UInt64

inductive LimitedError
  | invalidOperation
  | parentThrows
  deriving DecidableEq

inductive LimitedResult
  | count (n : UInt64)
  | mapping (size : Option Nat)
  | done
  | error (e : LimitedError)
  deriving DecidableEq

/-- What the parent does when asked to read or write: it returns after some bytes, or throws after some bytes. In the
latter case, `seek` tells whether it can seek when the position is fixed up. -/
inductive Answer
  | returns (count : Nat)
  | throws (count : Nat) (seek : Bool)

namespace LimitedStream

variable (w : Limits)

def hasPosition : Bool := w.origin ≠ nil

def hasLength : Bool := w.length ≠ nil

def trim (s : LimitedStream) (size : Nat) : Nat :=
  if hasLength w ∧ size > (w.length - s.position).toNat then (w.length - s.position).toNat else size

/-- `seek` tells whether the parent's `setPos` succeeds. -/
def setPos (s : LimitedStream) (pos : UInt64) (seek : Bool) : LimitedResult × LimitedStream :=
  if ¬hasPosition w then (.error .invalidOperation, s)
  else if hasLength w ∧ pos > w.length then (.error .invalidOperation, s)
  else if seek then (.done, ⟨{ s.parent with pos := w.origin + pos }, pos⟩)
  else (.error .parentThrows, s)

/-- The state after an exception in a transfer of `n` bytes. -/
def fixupPosition (s : LimitedStream) (n : Nat) (seek : Bool) : LimitedStream :=
  if hasLength w then
    if hasPosition w then
      let pos := s.parent.pos
      if pos < w.origin then (setPos w s 0 seek).2
      else if pos - w.origin > w.length then (setPos w s w.length seek).2
      else { s with position := pos - w.origin }
    else { s with position := s.position + UInt64.ofNat n }
  else s

/-- The common body of `read` and `write`. -/
def transfer (s : LimitedStream) (size : Nat) : Answer → Option (LimitedResult × LimitedStream)
  | .returns count =>
    (s.parent.access (trim w s size) count).map fun parent =>
      (.count (UInt64.ofNat count), ⟨parent, s.position + UInt64.ofNat count⟩)
  | .throws count seek =>
    (s.parent.access (trim w s size) count).map fun parent =>
      (.error .parentThrows, fixupPosition w { s with parent := parent } (trim w s size) seek)

def read (s : LimitedStream) (size : Nat) (answer : Answer) : Option (LimitedResult × LimitedStream) :=
  transfer w s size answer

def write (s : LimitedStream) (size : Nat) (answer : Answer) : Option (LimitedResult × LimitedStream) :=
  transfer w s size answer

/-- The parent maps a number of bytes, as if it had read them, or returns null. -/
def createFileMapping (s : LimitedStream) (limit : UInt64) :
    Option Nat → Option (LimitedResult × LimitedStream)
  | none => some (.mapping none, s)
  | some count =>
    (s.parent.access (trim w s limit.toNat) count).map fun parent =>
      (.mapping (some count), { s with parent := parent })

def getPos (s : LimitedStream) : UInt64 := s.position

/-- The constructor, for a parent that can seek to the origin. -/
def new : LimitedStream := (setPos w ⟨⟨0, []⟩, 0⟩ 0 true).2

end LimitedStream

inductive LimitedCall
  | read (size : Nat) (answer : Answer)
  | write (size : Nat) (answer : Answer)
  | setPos (pos : UInt64) (seek : Bool)
  | createFileMapping (limit : UInt64) (mapped : Option Nat)
  | getPos

namespace LimitedStream

variable (w : Limits)

/-- A call with its result. There is none if the parent's answer breaks its contract. -/
def call (s : LimitedStream) : LimitedCall → Option (LimitedResult × LimitedStream)
  | .read size answer => read w s size answer
  | .write size answer => write w s size answer
  | .setPos pos seek => some (setPos w s pos seek)
  | .createFileMapping limit mapped => createFileMapping w s limit mapped
  | .getPos => some (.count (getPos s), s)

def step (s : LimitedStream) (a : LimitedCall) : Option LimitedStream := (call w s a).map Prod.snd

/-- Every byte accessed is in the window, and the position is the parent's one relative to the origin. -/
structure Confined (s : LimitedStream) : Prop where
  window : ∀ r ∈ s.parent.accessed, ∀ i, r.1 ≤ i → i < r.1 + r.2 →
    w.origin.toNat ≤ i ∧ i < w.origin.toNat + w.length.toNat
  position : s.parent.pos.toNat = w.origin.toNat + s.position.toNat

/-- The call maps nothing, and seeks to no position beyond the range of a `FileSize_t`. -/
def Keeps : LimitedCall → Prop
  | .createFileMapping _ mapped => mapped = none ∨ mapped = some 0
  | .setPos pos seek => seek = true → pos ≤ w.length → w.origin.toNat + pos.toNat < 2 ^ 64
  | _ => True

/-! ### One call -/

/-- `Confined`, with the bound on the position that makes `trim` right. -/
structure Inside (s : LimitedStream) : Prop extends Confined w s where
  bound : s.position ≤ w.length

section

variable {w} (horigin : w.origin ≠ nil) (hlength : w.length ≠ nil) {s : LimitedStream}

theorem access_cases {p p' : Parent} {limit count : Nat} (h : p.access limit count = some p') :
    count ≤ limit ∧ p'.pos.toNat = p.pos.toNat + count ∧ p'.accessed = p.accessed ++ [(p.pos.toNat, count)] := by
  rw [Parent.access, Option.ite_none_right_eq_some] at h
  obtain ⟨⟨hlimit, hfits⟩, h⟩ := h
  cases h
  refine ⟨hlimit, ?_, rfl⟩
  rw [UInt64.toNat_add, UInt64.toNat_ofNat']
  omega

include hlength in
theorem trim_le (s : LimitedStream) (size : Nat) : trim w s size ≤ (w.length - s.position).toNat := by
  have hhas : hasLength w = true := decide_eq_true hlength
  rw [trim, hhas]
  split_ifs with hbig
  · exact Nat.le_refl _
  · simpa using hbig

theorem Inside.access {parent : Parent} {limit count : Nat} (h : Inside w s)
    (hlimit : limit ≤ (w.length - s.position).toNat) (haccess : s.parent.access limit count = some parent) :
    parent.pos.toNat = w.origin.toNat + (s.position.toNat + count) ∧ s.position.toNat + count ≤ w.length.toNat ∧
      ∀ r ∈ parent.accessed, ∀ i, r.1 ≤ i → i < r.1 + r.2 →
        w.origin.toNat ≤ i ∧ i < w.origin.toNat + w.length.toNat := by
  obtain ⟨hcount, hpos, haccessed⟩ := access_cases haccess
  have hbound := UInt64.le_iff_toNat_le.mp h.bound
  have hposition := h.position
  rw [UInt64.toNat_sub_of_le _ _ h.bound] at hlimit
  refine ⟨by omega, by omega, ?_⟩
  rw [haccessed]
  intro r hr i hfirst hlast
  rcases List.mem_append.mp hr with hr | hr
  · exact h.window r hr i hfirst hlast
  · rw [List.mem_singleton] at hr
    subst hr
    simp only at hfirst hlast
    omega

include horigin hlength

theorem inside_transfer {size : Nat} {answer : Answer} {r : LimitedResult × LimitedStream} (h : Inside w s)
    (hr : transfer w s size answer = some r) : Inside w r.2 := by
  have hlast := w.length.toNat_lt
  have htrim := trim_le hlength s size
  cases answer with
  | returns count =>
    obtain ⟨parent, haccess, rfl⟩ := Option.map_eq_some_iff.mp hr
    obtain ⟨hpos, hbound, hwindow⟩ := h.access htrim haccess
    have hposition : (s.position + UInt64.ofNat count).toNat = s.position.toNat + count := by
      rw [UInt64.toNat_add, UInt64.toNat_ofNat']
      omega
    refine ⟨⟨hwindow, ?_⟩, ?_⟩
    · rw [hposition]
      exact hpos
    · rw [UInt64.le_iff_toNat_le, hposition]
      exact hbound
  | throws count seek =>
    obtain ⟨parent, haccess, rfl⟩ := Option.map_eq_some_iff.mp hr
    obtain ⟨hpos, hbound, hwindow⟩ := h.access htrim haccess
    have hle : w.origin ≤ parent.pos := by
      rw [UInt64.le_iff_toNat_le]
      omega
    have hrelative : (parent.pos - w.origin).toNat = s.position.toNat + count := by
      rw [UInt64.toNat_sub_of_le _ _ hle]
      omega
    have hinside : parent.pos - w.origin ≤ w.length := by
      rw [UInt64.le_iff_toNat_le, hrelative]
      exact hbound
    have hfixup : fixupPosition w { s with parent := parent } (trim w s size) seek =
        ⟨parent, parent.pos - w.origin⟩ := by
      simp only [fixupPosition, hasLength, hasPosition, horigin, hlength, ne_eq, not_false_eq_true, decide_true,
        if_true, UInt64.not_lt.mpr hle, UInt64.not_lt.mpr hinside, if_false]
    simp only [hfixup]
    refine ⟨⟨hwindow, ?_⟩, hinside⟩
    rw [hrelative]
    exact hpos

theorem setPos_cases (pos : UInt64) (seek : Bool) :
    (setPos w s pos seek).2 = s ∧ ¬(seek = true ∧ pos ≤ w.length) ∨
      (setPos w s pos seek).2 = ⟨{ s.parent with pos := w.origin + pos }, pos⟩ ∧ seek = true ∧ pos ≤ w.length := by
  simp only [setPos, hasLength, hasPosition, horigin, hlength, ne_eq, not_false_eq_true, decide_true, true_and,
    not_true_eq_false, if_false]
  split_ifs with hbeyond hseek
  · exact .inl ⟨rfl, fun h => absurd hbeyond (UInt64.not_lt.mpr h.2)⟩
  · exact .inr ⟨rfl, hseek, UInt64.not_lt.mp hbeyond⟩
  · exact .inl ⟨rfl, fun h => hseek h.1⟩

theorem inside_step {s' : LimitedStream} {a : LimitedCall} (hstep : step w s a = some s') (h : Inside w s)
    (ha : Keeps w a) : Inside w s' := by
  obtain ⟨r, hr, rfl⟩ := Option.map_eq_some_iff.mp hstep
  cases a with
  | read size answer => exact inside_transfer horigin hlength h hr
  | write size answer => exact inside_transfer horigin hlength h hr
  | getPos =>
    cases hr
    exact h
  | setPos pos seek =>
    cases hr
    rcases setPos_cases horigin hlength pos seek with ⟨hsame, -⟩ | ⟨hmoved, hseek, hpos⟩
    · rw [hsame]
      exact h
    · rw [hmoved]
      refine ⟨⟨h.window, ?_⟩, hpos⟩
      rw [UInt64.toNat_add, Nat.mod_eq_of_lt (ha hseek hpos)]
  | createFileMapping limit mapped =>
    rcases ha with rfl | rfl
    · cases hr
      exact h
    · obtain ⟨parent, haccess, rfl⟩ := Option.map_eq_some_iff.mp hr
      obtain ⟨hpos, -, hwindow⟩ := h.access (trim_le hlength s limit.toNat) haccess
      exact ⟨⟨hwindow, hpos⟩, h.bound⟩

theorem not_confined_step {s' : LimitedStream} {a : LimitedCall} (hstep : step w s a = some s') (h : Inside w s)
    (ha : ¬Keeps w a) : ¬Confined w s' := by
  obtain ⟨r, hr, rfl⟩ := Option.map_eq_some_iff.mp hstep
  intro hconfined
  have hposition := hconfined.position
  cases a with
  | setPos pos seek =>
    rw [Keeps, Classical.not_imp, Classical.not_imp] at ha
    obtain ⟨hseek, hpos, hwraps⟩ := ha
    have horigin' := w.origin.toNat_lt
    have hpos' := pos.toNat_lt
    cases hr
    rcases setPos_cases (s := s) horigin hlength pos seek with ⟨-, hfails⟩ | ⟨hmoved, -⟩
    · exact hfails ⟨hseek, hpos⟩
    · rw [hmoved, UInt64.toNat_add] at hposition
      omega
  | createFileMapping limit mapped =>
    cases mapped with
    | none => exact ha (.inl rfl)
    | some count =>
      obtain ⟨parent, haccess, rfl⟩ := Option.map_eq_some_iff.mp hr
      obtain ⟨hpos, -, -⟩ := h.access (trim_le hlength s limit.toNat) haccess
      simp only at hposition
      exact ha (.inr (congrArg some (by omega)))
  | _ => exact ha trivial

theorem inside_new : Inside w (new w) := by
  rcases setPos_cases (s := ⟨⟨0, []⟩, 0⟩) horigin hlength 0 true with ⟨-, hfails⟩ | ⟨hmoved, -, hpos⟩
  · exact absurd ⟨rfl, UInt64.zero_le⟩ hfails
  · rw [new, hmoved]
    exact ⟨⟨fun r hr => absurd hr List.not_mem_nil, by rw [UInt64.add_zero]; rfl⟩, hpos⟩

end

end LimitedStream

/-- **A limited stream stays in its window**, exactly as long as the parent maps nothing for it and no seek leaves the
range of a `FileSize_t`. -/
theorem confined_iff_keeps (w : Limits) (horigin : w.origin ≠ LimitedStream.nil)
    (hlength : w.length ≠ LimitedStream.nil) (calls : List LimitedCall) :
    (∀ t ∈ trace (LimitedStream.step w) (LimitedStream.new w) calls, t.post.Confined w) ↔
      ∀ t ∈ trace (LimitedStream.step w) (LimitedStream.new w) calls, LimitedStream.Keeps w t.act :=
  forall_post_iff (I := LimitedStream.Inside w) (C := fun _ => LimitedStream.Keeps w) (fun h => h.toConfined)
    (LimitedStream.inside_step horigin hlength) (LimitedStream.not_confined_step horigin hlength)
    (LimitedStream.inside_new horigin hlength) calls

theorem confined_iff_keeps_ten :
    let w : Limits := ⟨100, 10⟩
    let calls : List LimitedCall := [.read 4 (.returns 4), .write 20 (.throws 3 true), .setPos 10 true, .setPos 11 true]
    (w.origin ≠ LimitedStream.nil ∧ w.length ≠ LimitedStream.nil) ∧
      ∀ t ∈ trace (LimitedStream.step w) (LimitedStream.new w) calls, t.post.Confined w := by
  intro w calls
  have horigin : w.origin ≠ LimitedStream.nil := by decide
  have hlength : w.length ≠ LimitedStream.nil := by decide
  refine ⟨⟨horigin, hlength⟩, (confined_iff_keeps w horigin hlength calls).mpr ?_⟩
  have hkeeps : ∀ a ∈ calls, LimitedStream.Keeps w a := by
    refine List.forall_mem_cons.mpr ⟨trivial, List.forall_mem_cons.mpr ⟨trivial, ?_⟩⟩
    exact List.forall_mem_cons.mpr ⟨fun _ _ => by decide, List.forall_mem_singleton.mpr fun _ _ => by decide⟩
  exact fun t ht => hkeeps t.act (act_mem_of_mem_trace ht)

/-- After mapping all ten bytes of the window, the next ten bytes of the parent are read. -/
theorem mapping_leaves_window :
    let w : Limits := ⟨100, 10⟩
    ∃ s, final (LimitedStream.step w) (LimitedStream.new w)
        [.createFileMapping 10 (some 10), .read 10 (.returns 10)] = some s ∧
      s.parent.accessed = [(100, 10), (110, 10)] ∧ ¬s.Confined w := by
  refine ⟨_, rfl, rfl, ?_⟩
  intro h
  exact absurd h.position (by decide)

end Afl.Io
