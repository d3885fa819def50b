import Afl.Base.Bytes
import Afl.Lib.Machine

/-!
# Several positions on one stream

The children of a `MultiplexableStream` share the position of their master. The control node knows which child is
active; the others have their position saved. So every child has a position of its own (`position`, `Handles`).

The master is arbitrary. A call comes with the answer that the master gives when it is asked to seek: a `setPos` that
throws leaves its position alone.
-/

namespace Afl.Io

variable {κ F : Type} [DecidableEq κ]

/-- The stream that is shared: what reading and writing at a position does to the content and the position. -/
structure Master (F : Type) where
  read : F → UInt64 → Nat → Bytes × UInt64 × F
  write : F → UInt64 → Bytes → Nat × UInt64 × F
  getSize : F → UInt64

/-- `ControlNode`, its children, and the content and position of the master. -/
structure ControlNode (κ F : Type) where
  parent : Bool
  children : List κ
  activeChild : Option κ
  posIfInactive : κ → UInt64
  content : F
  pos : UInt64

/-- What `activateChild` does: it returns the master or null, or an exception passes through it. -/
inductive Activation
  | stream
  | null
  | throws

/-- What a call on a child returns. Transfers are marked with the position at which they take place. -/
inductive ChildResult
  | bytes (at_ : UInt64) (out : Bytes)
  | count (at_ : UInt64) (n : Nat)
  | pos (at_ : UInt64)
  | size (n : UInt64)
  | done
  | null
  | throws
  deriving DecidableEq

/-- What can happen: calls on a child, children that come and go, and the end of the master. -/
inductive ChildCall (κ : Type)
  | read (ch : κ) (size : Nat)
  | write (ch : κ) (m : Bytes)
  | setPos (ch : κ) (pos : UInt64)
  | getPos (ch : κ)
  | getSize (ch : κ)
  | create (ch : κ)
  | destroy (ch : κ)
  | closeMaster

def ChildCall.child : ChildCall κ → Option κ
  | .read ch _ | .write ch _ | .setPos ch _ | .getPos ch | .getSize ch | .create ch | .destroy ch => some ch
  | .closeMaster => none

namespace ControlNode

/-- A master with nobody using it yet, wherever its position is. -/
def new (content : F) (pos : UInt64) : ControlNode κ F := ⟨true, [], none, fun _ => 0, content, pos⟩

def addChild (s : ControlNode κ F) (ch : κ) : ControlNode κ F :=
  { s with children := ch :: s.children, posIfInactive := Function.update s.posIfInactive ch 0 }

def removeChild (s : ControlNode κ F) (ch : κ) : ControlNode κ F :=
  { s with
    children := s.children.erase ch
    activeChild := if s.activeChild = some ch then none else s.activeChild }

def removeParent (s : ControlNode κ F) : ControlNode κ F := { s with parent := false, activeChild := none }

def deactivate (s : ControlNode κ F) : ControlNode κ F :=
  match s.activeChild with
  | some active => { s with posIfInactive := Function.update s.posIfInactive active s.pos, activeChild := none }
  | none => s

def activateChild (s : ControlNode κ F) (ch : κ) (wantSetPos seek : Bool) : Activation × ControlNode κ F :=
  if s.parent then
    if s.activeChild ≠ some ch then
      let s := s.deactivate
      if !wantSetPos then
        if seek then (.stream, { s with pos := s.posIfInactive ch, activeChild := some ch })
        else (.throws, s)
      else (.stream, { s with activeChild := some ch })
    else (.stream, s)
  else (.null, s)

def withChild (s : ControlNode κ F) (ch : κ) (wantSetPos seek : Bool)
    (body : ControlNode κ F → ChildResult × ControlNode κ F) : ChildResult × ControlNode κ F :=
  match s.activateChild ch wantSetPos seek with
  | (.stream, s) => body s
  | (.null, s) => (.null, s)
  | (.throws, s) => (.throws, s)

variable (M : Master F)

def read (s : ControlNode κ F) (ch : κ) (size : Nat) (seek : Bool) : ChildResult × ControlNode κ F :=
  s.withChild ch false seek fun s =>
    let (out, pos, content) := M.read s.content s.pos size
    (.bytes s.pos out, { s with pos := pos, content := content })

def write (s : ControlNode κ F) (ch : κ) (m : Bytes) (seek : Bool) : ChildResult × ControlNode κ F :=
  s.withChild ch false seek fun s =>
    let (n, pos, content) := M.write s.content s.pos m
    (.count s.pos n, { s with pos := pos, content := content })

def setPos (s : ControlNode κ F) (ch : κ) (pos : UInt64) (seek : Bool) : ChildResult × ControlNode κ F :=
  s.withChild ch true seek fun s => if seek then (.done, { s with pos := pos }) else (.throws, s)

def getPos (s : ControlNode κ F) (ch : κ) (seek : Bool) : ChildResult × ControlNode κ F :=
  s.withChild ch false seek fun s => (.pos s.pos, s)

/-- This does not need the position, so nobody is activated. -/
def getSize (s : ControlNode κ F) : ChildResult := if s.parent then .size (M.getSize s.content) else .null

/-- A call, and whether the master can seek in it. Calls that cannot be made (on a child that does not exist, or to
create one that does) are ignored. -/
def call (seek : Bool) (s : ControlNode κ F) : ChildCall κ → ChildResult × ControlNode κ F
  | .read ch size => if ch ∈ s.children then s.read M ch size seek else (.null, s)
  | .write ch m => if ch ∈ s.children then s.write M ch m seek else (.null, s)
  | .setPos ch pos => if ch ∈ s.children then s.setPos ch pos seek else (.null, s)
  | .getPos ch => if ch ∈ s.children then s.getPos ch seek else (.null, s)
  | .getSize ch => if ch ∈ s.children then (s.getSize M, s) else (.null, s)
  | .create ch => if ch ∈ s.children then (.null, s) else (.done, s.addChild ch)
  | .destroy ch => if ch ∈ s.children then (.done, s.removeChild ch) else (.null, s)
  | .closeMaster => (.done, s.removeParent)

end ControlNode

/-! ### Private positions -/

/-- A file that is opened several times: each handle has a position of its own, which only its own calls move. -/
structure Handles (κ F : Type) where
  isOpen : Bool
  handles : List κ
  position : κ → UInt64
  content : F

namespace Handles

def new (content : F) : Handles κ F := ⟨true, [], fun _ => 0, content⟩

variable (M : Master F)

def move (t : Handles κ F) (ch : κ) (pos : UInt64) : Handles κ F :=
  { t with position := Function.update t.position ch pos }

def call (t : Handles κ F) : ChildCall κ → ChildResult × Handles κ F
  | .read ch size =>
    if ch ∈ t.handles ∧ t.isOpen then
      let (out, pos, content) := M.read t.content (t.position ch) size
      (.bytes (t.position ch) out, { t.move ch pos with content := content })
    else (.null, t)
  | .write ch m =>
    if ch ∈ t.handles ∧ t.isOpen then
      let (n, pos, content) := M.write t.content (t.position ch) m
      (.count (t.position ch) n, { t.move ch pos with content := content })
    else (.null, t)
  | .setPos ch pos => if ch ∈ t.handles ∧ t.isOpen then (.done, t.move ch pos) else (.null, t)
  | .getPos ch => if ch ∈ t.handles ∧ t.isOpen then (.pos (t.position ch), t) else (.null, t)
  | .getSize ch => if ch ∈ t.handles ∧ t.isOpen then (.size (M.getSize t.content), t) else (.null, t)
  | .create ch => if ch ∈ t.handles then (.null, t) else (.done, { t.move ch 0 with handles := ch :: t.handles })
  | .destroy ch => if ch ∈ t.handles then (.done, { t with handles := t.handles.erase ch }) else (.null, t)
  | .closeMaster => (.done, { t with isOpen := false })

end Handles

variable {ch : κ}

namespace ControlNode

variable {s : ControlNode κ F} {t : Handles κ F} {M : Master F}

/-- The position of a child: that of the master if it is active, otherwise the saved one. -/
def position (s : ControlNode κ F) (ch : κ) : UInt64 := if s.activeChild = some ch then s.pos else s.posIfInactive ch

/-! ### Switching -/

theorem position_deactivate (s : ControlNode κ F) (x : κ) : s.deactivate.posIfInactive x = s.position x := by
  rw [deactivate, position]
  rcases s.activeChild with _ | active
  · rfl
  · by_cases hx : x = active
    · simp only [hx, Function.update_self, if_true]
    · simp only [Function.update_of_ne hx, Option.some.injEq, if_neg (Ne.symm hx)]

theorem activeChild_deactivate (s : ControlNode κ F) : s.deactivate.activeChild = none := by
  rw [deactivate]
  rcases h : s.activeChild with _ | active
  · exact h
  · rfl

theorem deactivate_rest (s : ControlNode κ F) :
    s.deactivate.parent = s.parent ∧ s.deactivate.children = s.children ∧ s.deactivate.content = s.content ∧
      s.deactivate.pos = s.pos := by
  rw [deactivate]
  rcases s.activeChild with _ | active
  · exact ⟨rfl, rfl, rfl, rfl⟩
  · exact ⟨rfl, rfl, rfl, rfl⟩

/-- The state in which a child has the master: its own position, all other positions saved. -/
structure Activated (s s' : ControlNode κ F) (ch : κ) : Prop where
  parent : s'.parent = s.parent
  children : s'.children = s.children
  content : s'.content = s.content
  active : s'.activeChild = some ch
  others : ∀ x, x ≠ ch → s'.position x = s.position x

theorem activated_deactivate (s : ControlNode κ F) (ch : κ) (pos : UInt64) :
    Activated s { s.deactivate with pos := pos, activeChild := some ch } ch := by
  obtain ⟨hparent, hchildren, hcontent, -⟩ := s.deactivate_rest
  refine ⟨hparent, hchildren, hcontent, rfl, ?_⟩
  intro x hx
  rw [position, if_neg fun h => hx (Option.some.inj h).symm]
  exact s.position_deactivate x

theorem activated_self (h : s.activeChild = some ch) : Activated s s ch :=
  ⟨rfl, rfl, rfl, h, fun _ _ => rfl⟩

theorem activateChild_transfer (hparent : s.parent = true) (ch : κ) :
    ∃ s', s.activateChild ch false true = (.stream, s') ∧ Activated s s' ch ∧ s'.pos = s.position ch := by
  rw [activateChild, if_pos hparent]
  by_cases hactive : s.activeChild = some ch
  · rw [if_neg (not_not.mpr hactive)]
    exact ⟨s, rfl, activated_self hactive, (if_pos hactive).symm⟩
  · rw [if_pos hactive]
    exact ⟨_, rfl, s.activated_deactivate ch _, s.position_deactivate ch⟩

theorem activateChild_seek (hparent : s.parent = true) (ch : κ) (seek : Bool) :
    ∃ s', s.activateChild ch true seek = (.stream, s') ∧ Activated s s' ch ∧ s'.pos = s.pos := by
  rw [activateChild, if_pos hparent]
  by_cases hactive : s.activeChild = some ch
  · rw [if_neg (not_not.mpr hactive)]
    exact ⟨s, rfl, activated_self hactive, rfl⟩
  · rw [if_pos hactive]
    exact ⟨_, rfl, s.activated_deactivate ch _, s.deactivate_rest.2.2.2⟩

theorem activateChild_throws (hparent : s.parent = true) (hactive : s.activeChild ≠ some ch) :
    s.activateChild ch false false = (.throws, s.deactivate) := by
  rw [activateChild, if_pos hparent, if_pos hactive]
  rfl

theorem activateChild_null (hparent : s.parent = false) (ch : κ) (wantSetPos seek : Bool) :
    s.activateChild ch wantSetPos seek = (.null, s) := by
  rw [activateChild, hparent]
  rfl

theorem Activated.position_of_ne {s' : ControlNode κ F} {ch x : κ} (h : Activated s s' ch) (hx : x ≠ ch) (pos : UInt64)
    (content : F) : ({ s' with pos := pos, content := content } : ControlNode κ F).position x = s.position x := by
  have hinactive : ¬s'.activeChild = some x := by
    rw [h.active]
    exact fun heq => hx (Option.some.inj heq).symm
  have hsaved := h.others x hx
  rw [position, if_neg hinactive] at hsaved
  rw [position, if_neg hinactive]
  exact hsaved

/-! ### Refinement -/

/-- As long as there is a master, every child has its own position. -/
structure Private (s : ControlNode κ F) (t : Handles κ F) : Prop where
  isOpen : t.isOpen = s.parent
  handles : t.handles = s.children
  content : t.content = s.content
  position : s.parent = true → ∀ x ∈ s.children, t.position x = s.position x
  active : ∀ x, s.activeChild = some x → x ∈ s.children
  nodup : s.children.Nodup

theorem private_new (content : F) (pos : UInt64) : Private (new content pos : ControlNode κ F) (.new content) :=
  ⟨rfl, rfl, rfl, fun _ _ h => absurd h List.not_mem_nil, fun _ h => absurd h (Option.some_ne_none _).symm,
    List.nodup_nil⟩

theorem Private.moved {s' : ControlNode κ F} (h : Private s t) (hch : ch ∈ s.children)
    (hactivated : Activated s s' ch) (pos : UInt64) {content content' : F} (hcontent : content' = content) :
    Private { s' with pos := pos, content := content } { t.move ch pos with content := content' } := by
  refine ⟨h.isOpen.trans hactivated.parent.symm, h.handles.trans hactivated.children.symm, hcontent, ?_, ?_, ?_⟩
  · intro hparent x hx
    by_cases hxch : x = ch
    · rw [hxch, ControlNode.position, if_pos hactivated.active]
      exact Function.update_self ch pos t.position
    · rw [hactivated.position_of_ne hxch, ← h.position (hactivated.parent ▸ hparent) x (hactivated.children ▸ hx)]
      exact Function.update_of_ne hxch pos t.position
  · intro x hx
    have hsame : ch = x := Option.some.inj (hactivated.active.symm.trans hx)
    rw [← hsame]
    exact hactivated.children.symm ▸ hch
  · exact hactivated.children.symm ▸ h.nodup

theorem move_self (t : Handles κ F) (ch : κ) : t.move ch (t.position ch) = t := by
  rw [Handles.move, Function.update_eq_self]

theorem Private.addChild (h : Private s t) (hch : ch ∉ s.children) :
    Private (s.addChild ch) { t.move ch 0 with handles := ch :: t.handles } := by
  have hinactive : ¬s.activeChild = some ch := fun hactive => hch (h.active ch hactive)
  refine ⟨h.isOpen, congrArg (ch :: ·) h.handles, h.content, ?_, ?_, List.nodup_cons.mpr ⟨hch, h.nodup⟩⟩
  · intro hparent x hx
    by_cases hxch : x = ch
    · rw [hxch, ControlNode.position, ControlNode.addChild, if_neg hinactive]
      simp only [Handles.move, Function.update_self]
    · have hold := h.position hparent x ((List.mem_cons.mp hx).resolve_left hxch)
      rw [ControlNode.position] at hold
      simp only [ControlNode.position, ControlNode.addChild, Handles.move, Function.update_of_ne hxch]
      exact hold
  · exact fun x hx => List.mem_cons_of_mem ch (h.active x hx)

theorem Private.removeChild (h : Private s t) (ch : κ) :
    Private (s.removeChild ch) { t with handles := t.handles.erase ch } := by
  refine ⟨h.isOpen, congrArg (List.erase · ch) h.handles, h.content, ?_, ?_, h.nodup.erase ch⟩
  · intro hparent x hx
    obtain ⟨hxch, hx⟩ := (List.Nodup.mem_erase_iff h.nodup).mp hx
    rw [h.position hparent x hx, ControlNode.position, ControlNode.position, ControlNode.removeChild]
    by_cases hactive : s.activeChild = some ch
    · have hother : ¬s.activeChild = some x := fun heq => hxch (Option.some.inj (heq.symm.trans hactive))
      simp only [hactive, if_true, reduceCtorEq, if_false]
      rw [← hactive, if_neg hother]
    · simp only [if_neg hactive]
  · intro x hx
    rw [ControlNode.removeChild] at hx
    by_cases hactive : s.activeChild = some ch
    · simp only [hactive, if_true] at hx
      cases hx
    · simp only [if_neg hactive] at hx
      have hxch : x ≠ ch := fun heq => hactive (heq ▸ hx)
      exact (List.mem_erase_of_ne hxch).mpr (h.active x hx)

theorem withChild_closed (hparent : s.parent = false) (ch : κ) (wantSetPos seek : Bool)
    (body : ControlNode κ F → ChildResult × ControlNode κ F) : s.withChild ch wantSetPos seek body = (.null, s) := by
  rw [withChild, activateChild_null hparent]

theorem Private.transfer (h : Private s t) (hch : ch ∈ s.children) (hparent : s.parent = true) :
    ∃ s', (∀ body, s.withChild ch false true body = body s') ∧ s'.pos = t.position ch ∧ s'.content = t.content ∧
      ∀ pos, ∀ {content content' : F}, content' = content →
        Private { s' with pos := pos, content := content } { t.move ch pos with content := content' } := by
  obtain ⟨s', hactivate, hactivated, hpos⟩ := activateChild_transfer hparent ch
  refine ⟨s', fun body => ?_, ?_, hactivated.content.trans h.content.symm, h.moved hch hactivated⟩
  · rw [withChild, hactivate]
  · rw [hpos, h.position hparent ch hch]

theorem Private.guarded (h : Private s t) (ch : κ) {impl : ChildResult × ControlNode κ F}
    {spec : ChildResult × Handles κ F} (hclosed : s.parent = false → impl = (.null, s))
    (hserved : ch ∈ s.children → s.parent = true → impl.1 = spec.1 ∧ Private impl.2 spec.2) :
    (if ch ∈ s.children then impl else (.null, s)).1 =
        (if ch ∈ t.handles ∧ t.isOpen = true then spec else (.null, t)).1 ∧
      Private (if ch ∈ s.children then impl else (.null, s)).2
        (if ch ∈ t.handles ∧ t.isOpen = true then spec else (.null, t)).2 := by
  rw [h.handles, h.isOpen]
  by_cases hch : ch ∈ s.children
  · rcases hparent : s.parent
    · rw [if_pos hch, if_neg fun hready => (by cases hready.2), hclosed hparent]
      exact ⟨rfl, h⟩
    · rw [if_pos hch, if_pos ⟨hch, rfl⟩]
      exact hserved hch hparent
  · rw [if_neg hch, if_neg fun hready => hch hready.1]
    exact ⟨rfl, h⟩

theorem private_call (h : Private s t) (a : ChildCall κ) :
    (s.call M true a).1 = (t.call M a).1 ∧ Private (s.call M true a).2 (t.call M a).2 := by
  cases a with
  | read ch size =>
    refine h.guarded ch (fun hparent => withChild_closed hparent ch false true _) fun hch hparent => ?_
    obtain ⟨s', hbody, hpos, hcontent, hmoved⟩ := h.transfer hch hparent
    rw [read, hbody, hpos, hcontent]
    exact ⟨rfl, hmoved _ rfl⟩
  | write ch m =>
    refine h.guarded ch (fun hparent => withChild_closed hparent ch false true _) fun hch hparent => ?_
    obtain ⟨s', hbody, hpos, hcontent, hmoved⟩ := h.transfer hch hparent
    rw [write, hbody, hpos, hcontent]
    exact ⟨rfl, hmoved _ rfl⟩
  | getPos ch =>
    refine h.guarded ch (fun hparent => withChild_closed hparent ch false true _) fun hch hparent => ?_
    obtain ⟨s', hbody, hpos, hcontent, hmoved⟩ := h.transfer hch hparent
    have hsame : Private s' (t.move ch s'.pos) := hmoved s'.pos hcontent.symm
    rw [hpos, move_self] at hsame
    rw [getPos, hbody, hpos]
    exact ⟨rfl, hsame⟩
  | setPos ch pos =>
    refine h.guarded ch (fun hparent => withChild_closed hparent ch true true _) fun hch hparent => ?_
    obtain ⟨s', hactivate, hactivated, -⟩ := activateChild_seek hparent ch true
    have hcontent : t.content = s'.content := h.content.trans hactivated.content.symm
    rw [setPos, withChild, hactivate]
    exact ⟨rfl, h.moved hch hactivated pos hcontent⟩
  | getSize ch =>
    refine h.guarded ch (fun hparent => ?_) fun hch hparent => ?_
    · rw [getSize, hparent]
      rfl
    · rw [getSize, hparent, h.content]
      exact ⟨rfl, h⟩
  | create ch =>
    rw [call, Handles.call, h.handles]
    split_ifs with hch
    · exact ⟨rfl, h⟩
    · refine ⟨rfl, ?_⟩
      have hadded := h.addChild hch
      rw [h.handles] at hadded
      exact hadded
  | destroy ch =>
    rw [call, Handles.call, h.handles]
    split_ifs with hch
    · refine ⟨rfl, ?_⟩
      have hremoved := h.removeChild ch
      rw [h.handles] at hremoved
      exact hremoved
    · exact ⟨rfl, h⟩
  | closeMaster =>
    refine ⟨rfl, rfl, h.handles, h.content, fun hparent => (by cases hparent), ?_, h.nodup⟩
    exact fun x hx => absurd hx (Option.some_ne_none x).symm

end ControlNode

open Machine in
/-- **Children do not see each other**: under every interleaving, they are answered as if each had the file open with
a position of its own. -/
theorem children_isolated (M : Master F) (content : F) (pos : UInt64) (calls : List (ChildCall κ)) :
    outputs (ControlNode.call M true) (.new content pos) calls = outputs (Handles.call M) (.new content) calls :=
  (outputs_eq (f := ControlNode.call M true) (g := Handles.call M) (R := ControlNode.Private) (C := fun _ _ => True)
    (fun h _ => ControlNode.private_call h _) (ControlNode.private_new content pos) calls fun _ _ _ _ => trivial).1

/-! ### Seeks that fail -/

/-- The position at which a read, write or query for the position took place. -/
def ChildResult.servedAt : ChildResult → Option UInt64
  | .bytes p _ => some p
  | .count p _ => some p
  | .pos p => some p
  | _ => none

namespace ControlNode

variable {s : ControlNode κ F} {M : Master F}

def step (M : Master F) (s : ControlNode κ F) (a : Bool × ChildCall κ) : ChildResult × ControlNode κ F :=
  s.call M a.1 a.2

theorem withChild_cases (s : ControlNode κ F) (ch : κ) (seek : Bool)
    (body : ControlNode κ F → ChildResult × ControlNode κ F) :
    s.withChild ch false seek body = (.null, s) ∨ s.withChild ch false seek body = (.throws, s.deactivate) ∨
      ∃ s', s.withChild ch false seek body = body s' ∧ Activated s s' ch ∧ s'.pos = s.position ch := by
  rcases hparent : s.parent
  · exact .inl (withChild_closed hparent ch false seek body)
  · by_cases hactive : s.activeChild = some ch
    · refine .inr (.inr ⟨s, ?_, activated_self hactive, (if_pos hactive).symm⟩)
      rw [withChild, activateChild, if_pos hparent, if_neg (not_not.mpr hactive)]
    · cases seek with
      | false =>
        refine .inr (.inl ?_)
        rw [withChild, activateChild_throws hparent hactive]
      | true =>
        obtain ⟨s', hactivate, hactivated, hpos⟩ := activateChild_transfer hparent ch
        refine .inr (.inr ⟨s', ?_, hactivated, hpos⟩)
        rw [withChild, hactivate]

theorem position_deactivate_eq (s : ControlNode κ F) (x : κ) : s.deactivate.position x = s.position x := by
  rw [position, s.activeChild_deactivate, if_neg (Option.some_ne_none x).symm, position_deactivate]

variable {seek : Bool}

theorem position_withChild {ch x : κ} {body : ControlNode κ F → ChildResult × ControlNode κ F}
    (hbody : ∀ s', ∃ pos content, (body s').2 = { s' with pos := pos, content := content }) (hx : ch ≠ x) :
    (s.withChild ch false seek body).2.position x = s.position x := by
  rcases s.withChild_cases ch seek body with h | h | ⟨s', h, hactivated, -⟩
  · rw [h]
  · rw [h]
    exact s.position_deactivate_eq x
  · obtain ⟨pos, content, hstate⟩ := hbody s'
    rw [h, hstate]
    exact hactivated.position_of_ne hx.symm pos content

variable {a : ChildCall κ}

theorem position_call {x : κ} (hx : a.child ≠ some x) (seek : Bool)
    (hparent : (s.call M seek a).2.parent = true) : (s.call M seek a).2.position x = s.position x := by
  cases a with
  | read ch size =>
    rw [call]
    split_ifs
    · exact position_withChild (fun s' => ⟨_, _, rfl⟩) fun heq => hx (congrArg some heq)
    · rfl
  | write ch m =>
    rw [call]
    split_ifs
    · exact position_withChild (fun s' => ⟨_, _, rfl⟩) fun heq => hx (congrArg some heq)
    · rfl
  | getPos ch =>
    rw [call]
    split_ifs
    · exact position_withChild (fun s' => ⟨s'.pos, s'.content, rfl⟩) fun heq => hx (congrArg some heq)
    · rfl
  | setPos ch pos =>
    have hne : x ≠ ch := fun heq => hx (congrArg some heq.symm)
    rw [call]
    split_ifs
    · rw [setPos]
      rcases hopen : s.parent
      · rw [withChild_closed hopen]
      · obtain ⟨s', hactivate, hactivated, -⟩ := activateChild_seek hopen ch seek
        rw [withChild, hactivate]
        cases seek with
        | false => exact hactivated.others x hne
        | true => exact hactivated.position_of_ne hne pos s'.content
    · rfl
  | getSize ch =>
    rw [call]
    split_ifs <;> rfl
  | create ch =>
    have hne : x ≠ ch := fun heq => hx (congrArg some heq.symm)
    rw [call]
    split_ifs
    · rfl
    · rw [position, position, addChild]
      simp only [Function.update_of_ne hne]
  | destroy ch =>
    have hne : ch ≠ x := fun heq => hx (congrArg some heq)
    rw [call]
    split_ifs
    · rw [position, position, removeChild]
      by_cases hactive : s.activeChild = some ch
      · simp only [hactive, if_true, reduceCtorEq, if_false, Option.some.injEq, if_neg hne]
      · simp only [if_neg hactive]
    · rfl
  | closeMaster => cases hparent

theorem parent_withChild {body : ControlNode κ F → ChildResult × ControlNode κ F}
    (hbody : ∀ s', (body s').2.parent = s'.parent) : (s.withChild ch false seek body).2.parent = s.parent := by
  rcases s.withChild_cases ch seek body with h | h | ⟨s', h, hactivated, -⟩
  · rw [h]
  · rw [h]
    exact s.deactivate_rest.1
  · rw [h, hbody, hactivated.parent]

theorem parent_of_call (h : (s.call M seek a).2.parent = true) : s.parent = true := by
  cases a with
  | read ch size =>
    rw [call] at h
    split_ifs at h
    · exact (parent_withChild fun _ => rfl).symm.trans h
    · exact h
  | write ch m =>
    rw [call] at h
    split_ifs at h
    · exact (parent_withChild fun _ => rfl).symm.trans h
    · exact h
  | getPos ch =>
    rw [call] at h
    split_ifs at h
    · exact (parent_withChild fun _ => rfl).symm.trans h
    · exact h
  | setPos ch pos =>
    by_contra hopen
    rw [Bool.not_eq_true] at hopen
    rw [call, setPos, withChild_closed hopen, ite_self, hopen] at h
    cases h
  | getSize ch =>
    rw [call] at h
    split_ifs at h <;> exact h
  | create ch =>
    rw [call] at h
    split_ifs at h <;> exact h
  | destroy ch =>
    rw [call] at h
    split_ifs at h <;> exact h
  | closeMaster => cases h

open Machine in
theorem parent_of_after {calls : List (Bool × ChildCall κ)} (h : (after (step M) s calls).parent = true) :
    s.parent = true := by
  induction calls generalizing s with
  | nil => exact h
  | cons a calls ih => exact parent_of_call (ih h)

open Machine in
theorem position_after {x : κ} {calls : List (Bool × ChildCall κ)} (hcalls : ∀ a ∈ calls, a.2.child ≠ some x)
    (hparent : (after (step M) s calls).parent = true) :
    (after (step M) s calls).position x = s.position x := by
  induction calls generalizing s with
  | nil => rfl
  | cons a calls ih =>
    obtain ⟨ha, hcalls⟩ := List.forall_mem_cons.mp hcalls
    have hrest := ih hcalls hparent
    exact hrest.trans (position_call ha a.1 (parent_of_after hparent))

theorem servedAt_withChild {body : ControlNode κ F → ChildResult × ControlNode κ F} {p : UInt64}
    (hbody : ∀ s', (body s').1.servedAt = some s'.pos) (hp : (s.withChild ch false seek body).1.servedAt = some p) :
    s.parent = true ∧ p = s.position ch := by
  rcases hparent : s.parent
  · rw [withChild_closed hparent] at hp
    cases hp
  · rcases s.withChild_cases ch seek body with h | h | ⟨s', h, -, hpos⟩
    · rw [h] at hp
      cases hp
    · rw [h] at hp
      cases hp
    · rw [h, hbody, hpos] at hp
      exact ⟨rfl, (Option.some.inj hp).symm⟩

theorem servedAt_call {x : κ} {p : UInt64} (hx : a.child = some x)
    (hp : (s.call M seek a).1.servedAt = some p) : s.parent = true ∧ p = s.position x := by
  cases a with
  | read ch size =>
    cases hx
    rw [call] at hp
    split_ifs at hp
    · exact servedAt_withChild (fun _ => rfl) hp
    · cases hp
  | write ch m =>
    cases hx
    rw [call] at hp
    split_ifs at hp
    · exact servedAt_withChild (fun _ => rfl) hp
    · cases hp
  | getPos ch =>
    cases hx
    rw [call] at hp
    split_ifs at hp
    · exact servedAt_withChild (fun _ => rfl) hp
    · cases hp
  | setPos ch pos =>
    rw [call] at hp
    split_ifs at hp
    · rw [setPos] at hp
      rcases hparent : s.parent
      · rw [withChild_closed hparent] at hp
        cases hp
      · obtain ⟨s', hactivate, -⟩ := activateChild_seek hparent ch seek
        rw [withChild, hactivate] at hp
        cases seek <;> cases hp
    · cases hp
  | getSize ch =>
    rw [call] at hp
    split_ifs at hp
    · rw [getSize] at hp
      split_ifs at hp <;> cases hp
    · cases hp
  | create ch =>
    rw [call] at hp
    split_ifs at hp <;> cases hp
  | destroy ch =>
    rw [call] at hp
    split_ifs at hp <;> cases hp
  | closeMaster => cases hp

theorem servedAt_getPos (hparent : s.parent = true) (hch : ch ∈ s.children) :
    (s.call M true (.getPos ch)).1.servedAt = some (s.position ch) := by
  obtain ⟨s', hactivate, -, hpos⟩ := activateChild_transfer hparent ch
  rw [call, if_pos hch, getPos, withChild, hactivate, ← hpos]
  rfl

/-- A failed seek of an inactive child: it is active although the master is not at its position. -/
def Misplaces (s : ControlNode κ F) (a : ChildCall κ) : Prop :=
  ∃ ch pos, a = .setPos ch pos ∧ s.activeChild ≠ some ch ∧ s.posIfInactive ch ≠ s.pos

theorem throws_cases (h : (s.call M false a).1 = .throws) :
    (∀ ch pos, a ≠ .setPos ch pos) ∧ (s.call M false a).2 = s.deactivate ∨
      ∃ ch pos, a = .setPos ch pos ∧ ch ∈ s.children ∧ s.parent = true ∧ Activated s (s.call M false a).2 ch ∧
        (s.call M false a).2.pos = s.pos := by
  have htransfer : ∀ ch body, (∀ s' : ControlNode κ F, (body s').1 ≠ .throws) →
      (s.withChild ch false false body).1 = .throws → (s.withChild ch false false body).2 = s.deactivate := by
    intro ch body hbody h
    rcases s.withChild_cases ch false body with hw | hw | ⟨s', hw, -⟩
    · rw [hw] at h
      cases h
    · rw [hw]
    · rw [hw] at h
      exact absurd h (hbody s')
  cases a with
  | read ch size =>
    rw [call] at h ⊢
    split_ifs at h ⊢
    exact .inl ⟨fun _ _ heq => (by cases heq), htransfer ch _ (fun _ => ChildResult.noConfusion) h⟩
  | write ch m =>
    rw [call] at h ⊢
    split_ifs at h ⊢
    exact .inl ⟨fun _ _ heq => (by cases heq), htransfer ch _ (fun _ => ChildResult.noConfusion) h⟩
  | getPos ch =>
    rw [call] at h ⊢
    split_ifs at h ⊢
    exact .inl ⟨fun _ _ heq => (by cases heq), htransfer ch _ (fun _ => ChildResult.noConfusion) h⟩
  | setPos ch pos =>
    rw [call] at h ⊢
    split_ifs at h ⊢ with hch
    rw [setPos] at h ⊢
    rcases hparent : s.parent
    · rw [withChild_closed hparent] at h
      cases h
    · obtain ⟨s', hactivate, hactivated, hpos⟩ := activateChild_seek hparent ch false
      rw [withChild, hactivate]
      exact .inr ⟨ch, pos, rfl, hch, rfl, hactivated, hpos⟩
  | getSize ch =>
    rw [call] at h
    split_ifs at h
    rw [getSize] at h
    split_ifs at h
  | create ch =>
    rw [call] at h
    split_ifs at h
  | destroy ch =>
    rw [call] at h
    split_ifs at h
  | closeMaster => cases h

end ControlNode

open Machine ControlNode in
/-- **A failed seek leaves all positions alone**, except when it is a `setPos` on an inactive child while the master is
elsewhere: then that child takes over the position of the master. -/
theorem positions_survive_iff (M : Master F) (s : ControlNode κ F) (a : ChildCall κ)
    (hthrows : (s.call M false a).1 = .throws) :
    (∀ x ∈ s.children, ∀ later : List (Bool × ChildCall κ), (∀ b ∈ later, b.2.child ≠ some x) →
      ∀ seek b p, b.child = some x →
        ((after (step M) (s.call M false a).2 later).call M seek b).1.servedAt = some p → p = s.position x) ↔
      ¬s.Misplaces a := by
  rcases throws_cases hthrows with ⟨hother, hstate⟩ | ⟨ch, pos, rfl, hch, hparent, hactivated, hpos⟩
  · -- every position is saved
    refine ⟨fun _ ⟨ch, pos, ha, _⟩ => hother ch pos ha, fun _ x _ later hlater seek b p hb hp => ?_⟩
    obtain ⟨hopen, hat⟩ := servedAt_call hb hp
    rw [hat, position_after hlater hopen, hstate, position_deactivate_eq]
  · have hself : (s.call M false (.setPos ch pos)).2.position ch = s.pos := by
      rw [position, if_pos hactivated.active, hpos]
    constructor
    · rintro hkept ⟨ch', pos', ha, hinactive, hsaved⟩
      cases ha
      have hmember : ch ∈ (s.call M false (.setPos ch pos)).2.children := hactivated.children.symm ▸ hch
      have hopen : (s.call M false (.setPos ch pos)).2.parent = true := hactivated.parent.trans hparent
      have hserved := servedAt_getPos (M := M) hopen hmember
      have hposition := hkept ch hch [] (fun _ h => absurd h List.not_mem_nil) true (.getPos ch) _ rfl hserved
      rw [hself, position, if_neg hinactive] at hposition
      exact hsaved hposition.symm
    · intro hplaced x _ later hlater seek b p hb hp
      obtain ⟨hopen, hat⟩ := servedAt_call hb hp
      rw [hat, position_after hlater hopen]
      by_cases hx : x = ch
      · rw [hx, hself, position]
        by_contra hne
        split_ifs at hne with hactive
        · exact hne rfl
        · exact hplaced ⟨ch, pos, rfl, hactive, fun heq => hne heq.symm⟩
      · exact hactivated.others x hx

/-- A file of bytes, as a master. -/
def bytesMaster : Master Bytes where
  read content pos size :=
    let out := (content.drop pos.toNat).take size
    (out, pos + UInt64.ofNat out.length, content)
  write content pos m :=
    (m.length, pos + UInt64.ofNat m.length, content.take pos.toNat ++ m ++ content.drop (pos.toNat + m.length))
  getSize content := UInt64.ofNat content.length

def twoChildren : ControlNode Nat Bytes :=
  Machine.after (ControlNode.call bytesMaster true) (.new [10, 11, 12, 13] 0) [.create 1, .create 2, .read 1 3]

open Machine ControlNode in
theorem positions_survive_iff_read :
    (twoChildren.call bytesMaster false (.read 2 1)).1 = .throws ∧
      ∀ x ∈ twoChildren.children, ∀ later : List (Bool × ChildCall Nat), (∀ b ∈ later, b.2.child ≠ some x) →
        ∀ seek b p, b.child = some x →
          ((after (step bytesMaster) (twoChildren.call bytesMaster false (.read 2 1)).2 later).call bytesMaster
            seek b).1.servedAt = some p → p = twoChildren.position x := by
  have hthrows : (twoChildren.call bytesMaster false (.read 2 1)).1 = .throws := by decide
  refine ⟨hthrows, (positions_survive_iff bytesMaster twoChildren (.read 2 1) hthrows).mpr ?_⟩
  rintro ⟨ch, pos, ha, -⟩
  cases ha

/-- A failed `setPos` of child 2 moves it from the start of the file to the position of child 1. -/
theorem failed_setPos_misplaces :
    let s := (twoChildren.call bytesMaster false (.setPos 2 1)).2
    (twoChildren.call bytesMaster false (.setPos 2 1)).1 = .throws ∧
      (twoChildren.call bytesMaster true (.getPos 2)).1 = .pos 0 ∧ (s.call bytesMaster true (.getPos 2)).1 = .pos 3 := by
  decide

end Afl.Io
