import Afl.Io.Archive.Directory
import Afl.Io.Stream.LimitedStream
import Afl.Io.Stream.MultiplexableStream

/-!
# Member streams of tar and ar files

A member is opened as a `LimitedStream` on a new child of the file that the archive is read from. If that file is the
master, and not a child itself, then reading on in the index moves the position of the child that was used last. The
specification has a file of its own for the index, and for each member stream its bytes and what of them has been read.
-/

namespace Afl.Io.Archive

open Lazy

variable {κ σ α : Type}

/-! ### Two readers -/

/-- What the readers of tar and ar files have in common. The position of the file does not matter to them, as they go
to the position of the next entry first. -/
structure Scanner (σ α : Type) where
  source : Source σ α FileError
  name : α → Bytes
  start : α → UInt64
  length : α → UInt64
  file : σ → File
  place : σ → UInt64 → σ
  atEnd : σ → Bool
  file_place : ∀ r p, file (place r p) = (file r).moved p
  place_place : ∀ r p q, place (place r p) q = place r q
  place_pos : ∀ r, place r (file r).pos = r
  items_place : ∀ r p, source.items (place r p) = source.items r
  left_place : ∀ r p, source.left (place r p) = source.left r
  atEnd_place : ∀ r p, atEnd (place r p) = atEnd r
  next_atEnd : ∀ {r}, atEnd r = true → source.next r = (.ok false, r)
  next_place : ∀ {r} p, (file r).canSeek = true → atEnd r = false → source.next (place r p) = source.next r
  file_next : ∀ r, file (source.next r).2 = (file r).moved (file (source.next r).2).pos

namespace Scanner

/-- Every member that is ever listed lies within the file. -/
def WellFormed (F : Scanner σ α) (r : σ) : Prop :=
  ∀ n, ∀ e ∈ F.source.items ((fun r => (F.source.next r).2)^[n] r),
    (F.start e).toNat + (F.length e).toNat ≤ (F.file r).content.length

variable {F : Scanner σ α} {r : σ}

theorem content_next (F : Scanner σ α) (r : σ) : (F.file (F.source.next r).2).content = (F.file r).content := by
  rw [F.file_next]
  rfl

theorem canSeek_next (F : Scanner σ α) (r : σ) : (F.file (F.source.next r).2).canSeek = (F.file r).canSeek := by
  rw [F.file_next]
  rfl

theorem WellFormed.inside (h : F.WellFormed r) {e : α} (he : e ∈ F.source.items r) :
    (F.start e).toNat + (F.length e).toNat ≤ (F.file r).content.length := h 0 e he

theorem WellFormed.next (h : F.WellFormed r) : F.WellFormed (F.source.next r).2 := by
  intro n e he
  rw [content_next]
  exact h (n + 1) e he

end Scanner

namespace TarReader

theorem readNextEntry_atEnd {r : TarReader} (hend : r.atEnd = true) : readNextEntry r = (.ok false, r) := by
  rw [readNextEntry, if_pos hend]

theorem file_readNextEntry (r : TarReader) :
    (readNextEntry r).2.file = r.file.moved (readNextEntry r).2.file.pos := by
  rcases hend : r.atEnd
  · rcases r.file.skipTo_cases r.nextEntryPosition with hskip | ⟨e, p, hskip⟩
    · rw [readNextEntry_eq hend hskip]
      rcases takeHeader_cases { r with file := r.file.moved _ } (r.file.bytesAt r.nextEntryPosition headerSize) with
        ⟨-, heq⟩ | ⟨-, ⟨-, heq⟩ | ⟨entry, -, heq⟩⟩ <;> rw [heq] <;> rfl
    · rw [readNextEntry_error hend hskip]
      rfl
  · rw [readNextEntry_atEnd hend]
    rfl

def scanner : Scanner TarReader TarEntry where
  source := source
  name := TarEntry.name
  start := TarEntry.start
  length := TarEntry.length
  file := TarReader.file
  place r p := { r with file := r.file.moved p }
  atEnd := TarReader.atEnd
  file_place _ _ := rfl
  place_place _ _ _ := rfl
  place_pos _ := rfl
  items_place _ _ := rfl
  left_place _ _ := rfl
  atEnd_place _ _ := rfl
  next_atEnd := readNextEntry_atEnd
  next_place p hseek hend := by
    simp only [source, readNextEntry, hend, Bool.false_eq_true, if_false, File.skipTo_moved hseek p]
  file_next := file_readNextEntry

end TarReader

namespace ArReader

theorem readNextEntry_atEnd {r : ArReader} (hend : r.atEnd = true) : readNextEntry r = (.ok false, r) := by
  rw [readNextEntry, if_pos hend]

theorem file_readNextEntry (r : ArReader) :
    (readNextEntry r).2.file = r.file.moved (readNextEntry r).2.file.pos := by
  rcases hend : r.atEnd
  · rcases r.file.skipTo_cases r.nextEntryPosition with hskip | ⟨e, p, hskip⟩
    · rw [readNextEntry_eq hend hskip]
      simp only
      split_ifs
      · generalize htake : takeMember _ _ _ _ = out
        exact (takeMember_rest htake).2
      · rfl
    · rw [readNextEntry_error hend hskip]
      rfl
  · rw [readNextEntry_atEnd hend]
    rfl

/-- `getDirectoryEntryByName` and `ArDirEnum::getNextElement`, as requests to the index. -/
def source : Source ArReader ArEntry FileError where
  next := readNextEntry
  items := ArReader.index
  left r := r.file.content.length - r.nextEntryPosition.toNat
  less := by
    intro r r' h
    obtain ⟨hinside, honward, hcontent⟩ := advances h
    have hheader : 0 < headerSize := by decide
    simp only [hcontent]
    omega

def scanner : Scanner ArReader ArEntry where
  source := source
  name := ArEntry.name
  start := ArEntry.start
  length := ArEntry.length
  file := ArReader.file
  place r p := { r with file := r.file.moved p }
  atEnd := ArReader.atEnd
  file_place _ _ := rfl
  place_place _ _ _ := rfl
  place_pos _ := rfl
  items_place _ _ := rfl
  left_place _ _ := rfl
  atEnd_place _ _ := rfl
  next_atEnd := readNextEntry_atEnd
  next_place p hseek hend := by
    simp only [source, readNextEntry, hend, Bool.false_eq_true, if_false, File.skipTo_moved hseek p]
  file_next := file_readNextEntry

end ArReader

/-! ### One file for all -/

/-- A reader of a file, which is a master or one of its children. That child is called `none`. -/
structure Shared (κ σ : Type) where
  reader : σ
  onChild : Bool
  node : ControlNode (Option κ) Bytes

/-- A member stream: the window of its `LimitedStream` and its position in there. -/
structure Member where
  window : Limits
  position : UInt64

/-- What is left of the window, as `LimitedStream::read` trims it. -/
def Member.trim (m : Member) (size : Nat) : Nat :=
  if LimitedStream.hasLength m.window ∧ size > (m.window.length - m.position).toNat then
    (m.window.length - m.position).toNat
  else size

/-- An archive with its enumerators and the member streams that are open. -/
structure Opened (κ σ : Type) where
  archive : Shared κ σ
  enumerators : List Nat
  members : κ → Option Member

/-- What can be done: requests to the index, opening a member that has been listed, and using its stream. -/
inductive MemberCall (κ : Type)
  | index (a : Request Bytes)
  | openFileForReading (i : Nat) (ch : κ)
  | read (ch : κ) (size : Nat)
  | close (ch : κ)

inductive MemberResult (α : Type)
  | entry (result : Except FileError (Option α))
  | bytes (out : Bytes)
  | done
  | null

section

variable [DecidableEq κ] (F : Scanner σ α)

namespace Shared

/-- The stream that the reader uses: asking a child for its position activates it. -/
def getPos (s : Shared κ σ) : ControlNode (Option κ) Bytes :=
  if s.onChild then (s.node.activateChild none false true).2 else s.node

/-- The reader has the position of its stream at first, and its stream that of the reader in the end. -/
def readNextEntry (s : Shared κ σ) : Except FileError Bool × Shared κ σ :=
  if F.atEnd s.reader then (.ok false, s)
  else
    let out := F.source.next (F.place s.reader s.getPos.pos)
    (out.1, { s with reader := out.2, node := { s.getPos with pos := (F.file out.2).pos } })

def source : Source (Shared κ σ) α FileError where
  next := readNextEntry F
  items s := F.source.items s.reader
  left s := F.source.left s.reader
  less := by
    intro s s' h
    rw [readNextEntry] at h
    split_ifs at h
    · cases h
    · obtain ⟨htrue, rfl⟩ := Prod.mk.inj h
      rw [← F.left_place s.reader s.getPos.pos]
      exact F.source.less (Prod.ext htrue rfl)

end Shared

namespace Opened

/-- The reader of a file that nobody else uses. It has been at the position of the file already. -/
def new (r : σ) (onChild : Bool) : Opened κ σ where
  archive :=
    ⟨r, onChild, { ControlNode.new (F.file r).content (F.file r).pos with
      children := if onChild then [none] else []
      activeChild := if onChild then some none else none }⟩
  enumerators := []
  members _ := none

/-- `TarStoredMember` and `ArMember`: a `LimitedStream` on a new child, which goes to its begin. -/
def openMember (node : ControlNode (Option κ) Bytes) (window : Limits) (ch : κ) : ControlNode (Option κ) Bytes :=
  let node := (node.call bytesMaster true (.create (some ch))).2
  if LimitedStream.hasPosition window then (node.call bytesMaster true (.setPos (some ch) (window.origin + 0))).2
  else node

/-- A call that cannot be made is ignored. -/
def call (s : Opened κ σ) : MemberCall κ → MemberResult α × Opened κ σ
  | .index a =>
    let (result, archive, enumerators) := (Shared.source F).request F.name (s.archive, s.enumerators) a
    (.entry result, { s with archive := archive, enumerators := enumerators })
  | .openFileForReading i ch =>
    match (F.source.items s.archive.reader)[i]?, s.members ch with
    | some e, none =>
      let window : Limits := ⟨F.start e, F.length e⟩
      (.done, { s with
        archive := { s.archive with node := openMember s.archive.node window ch }
        members := Function.update s.members ch (some ⟨window, 0⟩) })
    | _, _ => (.null, s)
  | .read ch size =>
    match s.members ch with
    | none => (.null, s)
    | some m =>
      match s.archive.node.call bytesMaster true (.read (some ch) (m.trim size)) with
      | (.bytes _ out, node) =>
        (.bytes out, { s with
          archive := { s.archive with node := node }
          members := Function.update s.members ch (some { m with position := m.position + UInt64.ofNat out.length }) })
      | (_, node) => (.bytes [], { s with archive := { s.archive with node := node } })
  | .close ch =>
    match s.members ch with
    | none => (.null, s)
    | some _ =>
      (.done, { s with
        archive := { s.archive with node := (s.archive.node.call bytesMaster true (.destroy (some ch))).2 }
        members := Function.update s.members ch none })

end Opened

/-! ### A file for each -/

/-- A member stream that nobody else can disturb: the bytes of the member, and how many of them have been read. -/
structure OpenMember where
  content : Bytes
  offset : Nat

/-- A reader with a file of its own, and member streams. -/
structure Independent (κ σ : Type) where
  reader : σ
  enumerators : List Nat
  members : κ → Option OpenMember

namespace Independent

def new (r : σ) : Independent κ σ := ⟨r, [], fun _ => none⟩

def call (s : Independent κ σ) : MemberCall κ → MemberResult α × Independent κ σ
  | .index a =>
    let (result, reader, enumerators) := F.source.request F.name (s.reader, s.enumerators) a
    (.entry result, { s with reader := reader, enumerators := enumerators })
  | .openFileForReading i ch =>
    match (F.source.items s.reader)[i]?, s.members ch with
    | some e, none =>
      let content := ((F.file s.reader).content.drop (F.start e).toNat).take (F.length e).toNat
      (.done, { s with members := Function.update s.members ch (some ⟨content, 0⟩) })
    | _, _ => (.null, s)
  | .read ch size =>
    match s.members ch with
    | none => (.null, s)
    | some w =>
      let out := (w.content.drop w.offset).take size
      (.bytes out, { s with members := Function.update s.members ch (some { w with offset := w.offset + out.length }) })
  | .close ch =>
    match s.members ch with
    | none => (.null, s)
    | some _ => (.done, { s with members := Function.update s.members ch none })

end Independent

/-- Reading on leaves the member streams alone: there is nothing to read, the reader has its own child, or no member
stream is the one that was used last, unless nothing is left of it. -/
def Free (members : κ → Option Member) (s : Shared κ σ) : Prop :=
  F.atEnd s.reader = true ∨ s.onChild = true ∨
    ∀ ch m, s.node.activeChild = some (some ch) → members ch = some m → m.position = m.window.length

/-- The calls that do not take the position away from a member stream. -/
def Undisturbed (s : Opened κ σ) : MemberCall κ → Prop
  | .index a => (Shared.source F).Ready F.name (s.archive, s.enumerators) a ∨ Free F s.members s.archive
  | _ => True

/-! ### Scanning -/

variable {F} {members : κ → Option Member} {s : Shared κ σ} {r : σ} {content : Bytes}

/-- The positions of the children are those that the member streams need. -/
structure Placed (members : κ → Option Member) (content : Bytes) (onChild : Bool) (t : Handles (Option κ) Bytes) :
    Prop where
  isOpen : t.isOpen = true
  content : t.content = content
  own : onChild = true → none ∈ t.handles
  opened : ∀ ch, some ch ∈ t.handles ↔ (members ch).isSome
  position : ∀ ch m, members ch = some m → m.position ≠ m.window.length →
    t.position (some ch) = m.window.origin + m.position

/-- The shared file of a reader has the positions that the member streams need. -/
structure Linked (F : Scanner σ α) (members : κ → Option Member) (content : Bytes) (s : Shared κ σ) (r : σ) : Prop where
  reader : ∃ p, s.reader = F.place r p
  canSeek : (F.file r).canSeek = true
  wellFormed : F.WellFormed r
  file : (F.file r).content = content
  node : ∃ t, s.node.Private t ∧ Placed members content s.onChild t

theorem Linked.items (h : Linked F members content s r) : F.source.items s.reader = F.source.items r := by
  obtain ⟨p, hreader⟩ := h.reader
  rw [hreader, F.items_place]

theorem Linked.atEnd (h : Linked F members content s r) : F.atEnd s.reader = F.atEnd r := by
  obtain ⟨p, hreader⟩ := h.reader
  rw [hreader, F.atEnd_place]

variable {t : Handles (Option κ) Bytes}

variable {onChild : Bool}

theorem Placed.move (h : Placed members content onChild t)
    {x : Option κ} (hx : ∀ ch m, x = some ch → members ch = some m → m.position = m.window.length) (p : UInt64) :
    Placed members content onChild (t.move x p) := by
  refine ⟨h.isOpen, h.content, h.own, h.opened, fun ch m hm hlive => ?_⟩
  have hne : some ch ≠ x := fun heq => hlive (hx ch m heq.symm hm)
  rw [Handles.move]
  exact (Function.update_of_ne hne p t.position).trans (h.position ch m hm hlive)

theorem Linked.moved (h : Linked F members content s r)
    (hfree : s.onChild = true ∨
      ∀ ch m, s.node.activeChild = some (some ch) → members ch = some m → m.position = m.window.length) (pos : UInt64) :
    ∃ t, ({ s.getPos with pos := pos } : ControlNode (Option κ) Bytes).Private t ∧
      Placed members content s.onChild t := by
  obtain ⟨t, hnode, hplaced⟩ := h.node
  have hparent : s.node.parent = true := hnode.isOpen.symm.trans hplaced.isOpen
  rw [Shared.getPos]
  split_ifs with hchild
  · obtain ⟨node, hactivate, hactivated, -⟩ := ControlNode.activateChild_transfer hparent (none : Option κ)
    have hown : none ∈ s.node.children := hnode.handles ▸ hplaced.own hchild
    rw [hactivate]
    exact ⟨t.move none pos, hnode.moved hown hactivated pos (hnode.content.trans hactivated.content.symm),
      hplaced.move (fun ch m hch => (Option.some_ne_none ch hch.symm).elim) pos⟩
  · have hfree := hfree.resolve_left hchild
    rcases hactive : s.node.activeChild with _ | x
    · refine ⟨t, ⟨hnode.isOpen, hnode.handles, hnode.content, fun hparent x hx => ?_, hnode.active, hnode.nodup⟩, hplaced⟩
      rw [hnode.position hparent x hx, ControlNode.position, ControlNode.position, hactive]
      rfl
    · exact ⟨t.move x pos, hnode.moved (hnode.active x hactive) (ControlNode.activated_self hactive) pos hnode.content,
        hplaced.move (fun ch m hch => hfree ch m (hch ▸ hactive)) pos⟩

theorem Linked.next (h : Linked F members content s r) (hfree : Free F members s) :
    (Shared.readNextEntry F s).1 = (F.source.next r).1 ∧
      Linked F members content (Shared.readNextEntry F s).2 (F.source.next r).2 ∧
        Free F members (Shared.readNextEntry F s).2 := by
  rw [Shared.readNextEntry]
  rcases hend : F.atEnd r
  · have hopen : ¬F.atEnd s.reader = true := by rw [h.atEnd, hend]; exact Bool.false_ne_true
    have hnext : F.source.next (F.place s.reader s.getPos.pos) = F.source.next r := by
      obtain ⟨p, hreader⟩ := h.reader
      rw [hreader, F.place_place, F.next_place _ h.canSeek hend]
    have hfree := hfree.resolve_left hopen
    rw [if_neg hopen, hnext]
    refine ⟨rfl, ⟨⟨_, (F.place_pos _).symm⟩, ?_, h.wellFormed.next, ?_, h.moved hfree _⟩, .inr ?_⟩
    · rw [F.canSeek_next, h.canSeek]
    · rw [F.content_next, h.file]
    · rcases hchild : s.onChild
      · refine .inr (fun ch m hactive => hfree.resolve_left (by rw [hchild]; exact Bool.false_ne_true) ch m ?_)
        rw [Shared.getPos, hchild] at hactive
        exact hactive
      · exact .inl rfl
  · rw [if_pos (h.atEnd.trans hend), F.next_atEnd hend]
    exact ⟨rfl, h, hfree⟩

theorem same_source (members : κ → Option Member) (content : Bytes) :
    Same (Shared.source F) F.source (Linked F members content)
      fun s r => Linked F members content s r ∧ Free F members s where
  weaken h := h.1
  items h := h.items
  next h := h.1.next h.2

/-! ### Member streams -/

/-- A member stream and its specification: it has the window of its member, and as much has been read. -/
structure Matches (content : Bytes) (m : Member) (o : OpenMember) : Prop where
  small : content.length < 0x8000000000000000
  inside : m.window.origin.toNat + m.window.length.toNat ≤ content.length
  content : o.content = (content.drop m.window.origin.toNat).take m.window.length.toNat
  offset : m.position.toNat = o.offset
  offset_le : o.offset ≤ m.window.length.toNat

namespace Matches

variable {m : Member} {o : OpenMember}

theorem trim_eq (h : Matches content m o) (size : Nat) : m.trim size = min size (m.window.length.toNat - o.offset) := by
  have hsmall := h.small
  have hinside := h.inside
  have hlength : LimitedStream.hasLength m.window = true := by
    refine decide_eq_true fun hnil => ?_
    rw [hnil, show LimitedStream.nil.toNat = 0xFFFFFFFFFFFFFFFF from rfl] at hinside
    omega
  have hle : m.position ≤ m.window.length := by
    rw [UInt64.le_iff_toNat_le, h.offset]
    exact h.offset_le
  have hrest : (m.window.length - m.position).toNat = m.window.length.toNat - o.offset := by
    rw [UInt64.toNat_sub_of_le _ _ hle, h.offset]
  rw [Member.trim, hlength, hrest]
  simp only [true_and]
  split_ifs <;> omega

theorem bytes_eq (h : Matches content m o) {p : UInt64}
    (hp : m.position ≠ m.window.length → p = m.window.origin + m.position) (size : Nat) :
    (content.drop p.toNat).take (m.trim size) = (o.content.drop o.offset).take size := by
  have hsmall := h.small
  have hinside := h.inside
  have hoffset := h.offset_le
  rw [h.trim_eq, h.content, List.drop_take, List.take_take, List.drop_drop]
  by_cases hend : m.position = m.window.length
  · have hzero : m.window.length.toNat - o.offset = 0 := by
      rw [← h.offset, hend]
      omega
    rw [hzero, Nat.min_zero, List.take_zero, List.take_zero]
  · have hplace : p.toNat = m.window.origin.toNat + o.offset := by
      rw [hp hend, UInt64.toNat_add, h.offset]
      omega
    rw [hplace]

theorem read (h : Matches content m o) {n : Nat} (hn : n ≤ m.window.length.toNat - o.offset) :
    Matches content { m with position := m.position + UInt64.ofNat n } { o with offset := o.offset + n } := by
  have hsmall := h.small
  have hinside := h.inside
  have hoffset := h.offset_le
  refine ⟨hsmall, hinside, h.content, ?_, ?_⟩
  · change (m.position + UInt64.ofNat n).toNat = o.offset + n
    rw [UInt64.toNat_add, UInt64.toNat_ofNat', h.offset]
    omega
  · change o.offset + n ≤ m.window.length.toNat
    omega

end Matches

/-- The shared file behaves as a file for each. -/
structure Simulates (F : Scanner σ α) (content : Bytes) (s : Opened κ σ) (w : Independent κ σ) : Prop where
  linked : Linked F s.members content s.archive w.reader
  enumerators : s.enumerators = w.enumerators
  members : ∀ ch, Option.Rel (Matches content) (s.members ch) (w.members ch)

variable {s : Opened κ σ} {w : Independent κ σ}

theorem Simulates.index (h : Simulates F content s w) {a : Request Bytes}
    (hfree : (Shared.source F).Ready F.name (s.archive, s.enumerators) a ∨ Free F s.members s.archive) :
    (s.call F (.index a)).1 = (w.call F (.index a)).1 ∧
      Simulates F content (s.call F (.index a)).2 (w.call F (.index a)).2 := by
  obtain ⟨hlinked, henumerators, hmembers⟩ := h
  obtain ⟨hresult, hnumbers, hlinked'⟩ := (same_source s.members content).request F.name hlinked s.enumerators a
    (hfree.imp_right fun hfree => ⟨hlinked, hfree⟩)
  simp only [Opened.call, Independent.call, ← henumerators]
  exact ⟨congrArg MemberResult.entry hresult, hlinked', hnumbers, hmembers⟩

variable {ch : κ}

theorem Opened.call_read {m : Member} (hm : s.members ch = some m) {size : Nat} {p : UInt64} {out : Bytes}
    {node : ControlNode (Option κ) Bytes}
    (hnode : s.archive.node.call bytesMaster true (.read (some ch) (m.trim size)) = (.bytes p out, node)) :
    s.call F (.read ch size) =
      (.bytes out, { s with
        archive := { s.archive with node := node }
        members := Function.update s.members ch (some { m with position := m.position + UInt64.ofNat out.length }) }) := by
  rw [Opened.call, hm]
  simp only [hnode]

theorem Independent.call_read {o : OpenMember} (ho : w.members ch = some o) {size : Nat} {out : Bytes}
    (hout : (o.content.drop o.offset).take size = out) :
    w.call F (.read ch size) =
      (.bytes out, { w with
        members := Function.update w.members ch (some { o with offset := o.offset + out.length }) }) := by
  rw [Independent.call, ho]
  simp only [hout]

theorem rel_update (hmembers : ∀ ch, Option.Rel (Matches content) (s.members ch) (w.members ch))
    {m : Option Member} {o : Option OpenMember} (hnew : Option.Rel (Matches content) m o) (x : κ) :
    Option.Rel (Matches content) (Function.update s.members ch m x) (Function.update w.members ch o x) := by
  by_cases hx : x = ch
  · rw [hx, Function.update_self, Function.update_self]
    exact hnew
  · rw [Function.update_of_ne hx, Function.update_of_ne hx]
    exact hmembers x

theorem Placed.read (h : Placed members content onChild t)
    {m : Member} {o : OpenMember} (hm : members ch = some m) (hmatches : Matches content m o) {n : Nat}
    (hn : n ≤ m.window.length.toNat - o.offset) :
    Placed (Function.update members ch (some { m with position := m.position + UInt64.ofNat n })) content onChild
      (t.move (some ch) (t.position (some ch) + UInt64.ofNat n)) := by
  refine ⟨h.isOpen, h.content, h.own, fun x => ?_, fun x m' hm' hlive => ?_⟩
  · rw [show (t.move (some ch) _).handles = t.handles from rfl, h.opened x]
    by_cases hx : x = ch
    · rw [hx, hm, Function.update_self]
      exact ⟨fun _ => rfl, fun _ => rfl⟩
    · rw [Function.update_of_ne hx]
  · rw [Handles.move]
    by_cases hx : x = ch
    · subst hx
      rw [Function.update_self, Option.some.injEq] at hm'
      subst hm'
      -- what is live now has been live before
      have hbefore : m.position ≠ m.window.length := by
        intro hend
        have hzero : n = 0 := by
          have hoffset := hmatches.offset
          rw [hend] at hoffset
          omega
        refine hlive ?_
        change m.position + UInt64.ofNat n = m.window.length
        rw [hzero, hend]
        exact UInt64.add_zero _
      change Function.update t.position (some x) _ (some x) = _
      rw [Function.update_self, h.position x m hm hbefore, UInt64.add_assoc]
    · rw [Function.update_of_ne hx] at hm'
      have hne : some x ≠ some ch := fun heq => hx (Option.some.inj heq)
      exact (Function.update_of_ne hne _ t.position).trans (h.position x m' hm' hlive)

theorem Simulates.read (h : Simulates F content s w) (ch : κ) (size : Nat) :
    (s.call F (.read ch size)).1 = (w.call F (.read ch size)).1 ∧
      Simulates F content (s.call F (.read ch size)).2 (w.call F (.read ch size)).2 := by
  have hrel := h.members ch
  rcases hm : s.members ch with _ | m <;> rcases ho : w.members ch with _ | o <;> rw [hm, ho] at hrel
  · simp only [Opened.call, Independent.call, hm, ho]
    exact ⟨trivial, h⟩
  · cases hrel
  · cases hrel
  obtain hmatches : Matches content m o := by cases hrel; assumption
  obtain ⟨⟨hreader, hseek, hwf, hfile, t, hnode, hplaced⟩, henumerators, hmembers⟩ := h
  have hopen : some ch ∈ t.handles ∧ t.isOpen = true :=
    ⟨(hplaced.opened ch).mpr (by rw [hm]; rfl), hplaced.isOpen⟩
  -- the child is answered as if it had the file alone
  obtain ⟨hanswer, hnode'⟩ := ControlNode.private_call (M := bytesMaster) hnode (.read (some ch) (m.trim size))
  have hbytes := hmatches.bytes_eq (fun hlive => hplaced.position ch m hm hlive) size
  have hcall : t.call bytesMaster (.read (some ch) (m.trim size)) =
      (.bytes (t.position (some ch)) ((o.content.drop o.offset).take size),
        t.move (some ch) (t.position (some ch) + UInt64.ofNat ((o.content.drop o.offset).take size).length)) := by
    rw [Handles.call, if_pos hopen, ← hbytes, ← hplaced.content]
    rfl
  have hout : ((o.content.drop o.offset).take size).length ≤ m.window.length.toNat - o.offset := by
    rw [hmatches.content, List.length_take, List.length_drop, List.length_take]
    omega
  rcases hnodeCall : s.archive.node.call bytesMaster true (.read (some ch) (m.trim size)) with ⟨answer, node⟩
  rw [hcall, hnodeCall] at hanswer hnode'
  obtain rfl : answer = _ := hanswer
  rw [Opened.call_read hm hnodeCall, Independent.call_read ho rfl]
  exact ⟨rfl, ⟨hreader, hseek, hwf, hfile, _, hnode', hplaced.read hm hmatches hout⟩, henumerators,
    rel_update hmembers (.some (hmatches.read hout))⟩

theorem Placed.destroy (h : Placed members content onChild t)
    {handles : List (Option κ)} (hhandles : ∀ x, x ∈ handles ↔ x ≠ some ch ∧ x ∈ t.handles) :
    Placed (Function.update members ch none) content onChild { t with handles := handles } := by
  refine ⟨h.isOpen, h.content, fun hchild => ?_, fun x => ?_, fun x m hm hlive => ?_⟩
  · exact (hhandles none).mpr ⟨(Option.some_ne_none ch).symm, h.own hchild⟩
  · by_cases hx : x = ch
    · rw [hx, Function.update_self]
      exact ⟨fun hmem => absurd rfl ((hhandles _).mp hmem).1, fun hsome => by cases hsome⟩
    · have hne : some x ≠ some ch := fun heq => hx (Option.some.inj heq)
      rw [Function.update_of_ne hx, ← h.opened x]
      exact (hhandles _).trans (and_iff_right hne)
  · by_cases hx : x = ch
    · rw [hx, Function.update_self] at hm
      cases hm
    · rw [Function.update_of_ne hx] at hm
      exact h.position x m hm hlive

theorem Simulates.close (h : Simulates F content s w) (ch : κ) :
    (s.call F (.close ch)).1 = (w.call F (.close ch)).1 ∧
      Simulates F content (s.call F (.close ch)).2 (w.call F (.close ch)).2 := by
  have hrel := h.members ch
  simp only [Opened.call, Independent.call]
  rcases hm : s.members ch with _ | m <;> rcases ho : w.members ch with _ | o <;> rw [hm, ho] at hrel
  · exact ⟨rfl, h⟩
  · cases hrel
  · cases hrel
  · obtain ⟨⟨hreader, hseek, hwf, hfile, t, hnode, hplaced⟩, henumerators, hmembers⟩ := h
    have hopen : some ch ∈ t.handles := (hplaced.opened ch).mpr (by rw [hm]; rfl)
    obtain ⟨-, hnode'⟩ := ControlNode.private_call (M := bytesMaster) hnode (.destroy (some ch))
    rw [Handles.call, if_pos hopen] at hnode'
    have hnodup : t.handles.Nodup := hnode.handles ▸ hnode.nodup
    dsimp only at hnode' ⊢
    exact ⟨rfl, ⟨hreader, hseek, hwf, hfile, _, hnode',
      hplaced.destroy fun _ => @List.Nodup.mem_erase_iff _ instBEqOfDecidableEq _ _ _ _ hnodup⟩, henumerators,
      rel_update hmembers .none⟩

theorem Placed.create (h : Placed members content onChild t) {window : Limits} {p : UInt64} (hp : p = window.origin) :
    Placed (Function.update members ch (some ⟨window, 0⟩)) content onChild
      (({ t.move (some ch) 0 with handles := some ch :: t.handles } : Handles (Option κ) Bytes).move (some ch) p) := by
  refine ⟨h.isOpen, h.content, fun hchild => List.mem_cons_of_mem _ (h.own hchild), fun x => ?_, fun x m hm hlive => ?_⟩
  · by_cases hx : x = ch
    · rw [hx, Function.update_self]
      exact ⟨fun _ => rfl, fun _ => List.mem_cons_self⟩
    · have hne : some x ≠ some ch := fun heq => hx (Option.some.inj heq)
      rw [Function.update_of_ne hx, ← h.opened x]
      exact List.mem_cons.trans (or_iff_right hne)
  · by_cases hx : x = ch
    · subst hx
      rw [Function.update_self, Option.some.injEq] at hm
      subst hm
      rw [Handles.move, hp]
      exact (Function.update_self _ _ _).trans (UInt64.add_zero _).symm
    · rw [Function.update_of_ne hx] at hm
      have hne : some x ≠ some ch := fun heq => hx (Option.some.inj heq)
      rw [Handles.move, Handles.move]
      exact (Function.update_of_ne hne _ _).trans ((Function.update_of_ne hne _ t.position).trans (h.position x m hm hlive))

theorem matches_new {window : Limits} (hsmall : content.length < 0x8000000000000000)
    (hinside : window.origin.toNat + window.length.toNat ≤ content.length) :
    Matches content ⟨window, 0⟩ ⟨(content.drop window.origin.toNat).take window.length.toNat, 0⟩ :=
  ⟨hsmall, hinside, rfl, rfl, Nat.zero_le _⟩

theorem private_openMember {node : ControlNode (Option κ) Bytes} (hnode : node.Private t)
    (hopen : t.isOpen = true) (hch : some ch ∉ t.handles) {window : Limits}
    (hposition : LimitedStream.hasPosition window = true) :
    (Opened.openMember node window ch).Private
      (({ t.move (some ch) 0 with handles := some ch :: t.handles } : Handles (Option κ) Bytes).move (some ch)
        (window.origin + 0)) := by
  obtain ⟨-, hcreated⟩ := ControlNode.private_call (M := bytesMaster) hnode (.create (some ch))
  rw [Handles.call, if_neg hch] at hcreated
  obtain ⟨-, hplaced⟩ := ControlNode.private_call (M := bytesMaster) hcreated (.setPos (some ch) (window.origin + 0))
  rw [Handles.call, if_pos ⟨List.mem_cons_self, hopen⟩] at hplaced
  rw [Opened.openMember, hposition]
  exact hplaced

theorem Simulates.openFileForReading (h : Simulates F content s w) (i : Nat) (ch : κ) :
    (s.call F (.openFileForReading i ch)).1 = (w.call F (.openFileForReading i ch)).1 ∧
      Simulates F content (s.call F (.openFileForReading i ch)).2 (w.call F (.openFileForReading i ch)).2 := by
  have hrel := h.members ch
  have hitems := h.linked.items
  simp only [Opened.call, Independent.call, hitems]
  rcases he : (F.source.items w.reader)[i]? with _ | e <;> rcases hm : s.members ch with _ | m <;>
    rcases ho : w.members ch with _ | o <;> rw [hm, ho] at hrel
  · exact ⟨rfl, h⟩
  · cases hrel
  · cases hrel
  · exact ⟨rfl, h⟩
  · obtain ⟨⟨hreader, hseek, hwf, hfile, t, hnode, hplaced⟩, henumerators, hmembers⟩ := h
    have hsmall := (F.file w.reader).small
    have hinside := hwf.inside (List.mem_of_getElem? he)
    rw [hfile] at hsmall hinside
    have hposition : LimitedStream.hasPosition ⟨F.start e, F.length e⟩ = true := by
      refine decide_eq_true fun hnil => ?_
      change F.start e = LimitedStream.nil at hnil
      rw [hnil, show LimitedStream.nil.toNat = 0xFFFFFFFFFFFFFFFF from rfl] at hinside
      omega
    have hch : some ch ∉ t.handles := fun hmem => by
      have hsome := (hplaced.opened ch).mp hmem
      rw [hm] at hsome
      cases hsome
    refine ⟨rfl, ⟨hreader, hseek, hwf, hfile, _, private_openMember hnode hplaced.isOpen hch hposition,
      hplaced.create (UInt64.add_zero _)⟩, henumerators, rel_update hmembers (.some ?_)⟩
    rw [hfile]
    exact matches_new hsmall hinside
  · cases hrel
  · cases hrel
  · exact ⟨rfl, h⟩

theorem Simulates.call (h : Simulates F content s w) {a : MemberCall κ} (ha : Undisturbed F s a) :
    (s.call F a).1 = (w.call F a).1 ∧ Simulates F content (s.call F a).2 (w.call F a).2 := by
  cases a with
  | index a => exact h.index ha
  | openFileForReading i ch => exact h.openFileForReading i ch
  | read ch size => exact h.read ch size
  | close ch => exact h.close ch

theorem simulates_new {r : σ} (hseek : (F.file r).canSeek = true) (hwf : F.WellFormed r) (onChild : Bool) :
    Simulates F (F.file r).content (Opened.new F r onChild : Opened κ σ) (Independent.new r) := by
  refine ⟨⟨⟨(F.file r).pos, (F.place_pos r).symm⟩, hseek, hwf, rfl,
    ⟨true, if onChild then [none] else [], fun _ => (F.file r).pos, (F.file r).content⟩, ?_, ?_⟩, rfl, fun _ => .none⟩
  · refine ⟨rfl, rfl, rfl, fun _ x hx => ?_, fun x hx => ?_, ?_⟩
    · rcases onChild
      · cases hx
      · rw [List.mem_singleton.mp hx, ControlNode.position, Opened.new, if_pos rfl]
        rfl
    · rcases onChild
      · cases hx
      · cases hx
        exact List.mem_singleton_self none
    · rcases onChild
      · exact List.nodup_nil
      · exact List.nodup_cons.mpr ⟨List.not_mem_nil, List.nodup_nil⟩
  · refine ⟨rfl, rfl, fun hchild => ?_, fun ch => ?_, fun ch m hm => by cases hm⟩
    · change onChild = true at hchild
      rw [hchild]
      exact List.mem_singleton_self none
    · refine ⟨fun hmem => ?_, fun hsome => by cases hsome⟩
      rcases onChild
      · cases hmem
      · cases List.mem_singleton.mp hmem

open Machine in
/-- **Member streams and the index do not see each other** as long as nobody is disturbed. -/
theorem outputs_independent {r : σ} (hseek : (F.file r).canSeek = true) (hwf : F.WellFormed r) (onChild : Bool)
    (calls : List (MemberCall κ))
    (hcalls : ∀ before a rest, calls = before ++ a :: rest →
      Undisturbed F (after (Opened.call F) (Opened.new F r onChild) before) a) :
    outputs (Opened.call F) (Opened.new F r onChild) calls = outputs (Independent.call F) (Independent.new r) calls :=
  ((outputs_eq (R := fun w s => Simulates F (F.file r).content s w) (C := Undisturbed F)
    (fun h ha => ⟨(h.call ha).1.symm, (h.call ha).2⟩) (simulates_new hseek hwf onChild) calls hcalls).1).symm

/-! ### Tar and ar files -/

/-- **Member streams of tar and ar files are independent of scanning**: in every run in which nobody is disturbed, the
index answers as if the reader had the file alone, and every member stream returns the bytes of its member in order. -/
theorem member_streams_independent (onChild : Bool) (calls : List (MemberCall κ)) :
    (∀ r : TarReader, r.file.canSeek = true → TarReader.scanner.WellFormed r →
      (∀ before a rest, calls = before ++ a :: rest →
        Undisturbed TarReader.scanner
          (Machine.after (Opened.call TarReader.scanner) (Opened.new TarReader.scanner r onChild) before) a) →
      Machine.outputs (Opened.call TarReader.scanner) (Opened.new TarReader.scanner r onChild) calls =
        Machine.outputs (Independent.call TarReader.scanner) (Independent.new r) calls) ∧
    ∀ r : ArReader, r.file.canSeek = true → ArReader.scanner.WellFormed r →
      (∀ before a rest, calls = before ++ a :: rest →
        Undisturbed ArReader.scanner
          (Machine.after (Opened.call ArReader.scanner) (Opened.new ArReader.scanner r onChild) before) a) →
      Machine.outputs (Opened.call ArReader.scanner) (Opened.new ArReader.scanner r onChild) calls =
        Machine.outputs (Independent.call ArReader.scanner) (Independent.new r) calls :=
  ⟨fun _ hseek hwf hcalls => outputs_independent hseek hwf onChild calls hcalls,
    fun _ hseek hwf hcalls => outputs_independent hseek hwf onChild calls hcalls⟩

end

namespace ArReader

def pairFile : File where
  name := []
  content := fileMagic ++ lit "a/" ++ List.replicate 46 32 ++ lit "2         " ++ memberMagic ++ lit "pq"
  canSeek := true
  pos := 0
  small := by decide

def pairReader : ArReader := ⟨pairFile.moved 8, 8, false, [], []⟩

example : new pairFile = .ok pairReader := by decide

theorem wellFormed_pairReader : scanner.WellFormed pairReader := by
  have hlast : readNextEntry (readNextEntry (readNextEntry pairReader).2).2 =
      (.ok false, (readNextEntry (readNextEntry pairReader).2).2) := readNextEntry_atEnd (by decide)
  have hstill : ∀ n, (fun r => (readNextEntry r).2)^[n] (readNextEntry (readNextEntry pairReader).2).2 =
      (readNextEntry (readNextEntry pairReader).2).2 := by
    intro n
    induction n with
    | zero => rfl
    | succ n ih => rw [Function.iterate_succ_apply, hlast, ih]
  intro n
  obtain _ | _ | n := n
  · decide
  · decide
  · change ∀ e ∈ ((fun r => (readNextEntry r).2)^[n + 2] pairReader).index, _
    rw [Function.iterate_succ_apply, Function.iterate_succ_apply, hstill]
    decide

def readOn (s : Opened Unit ArReader) : Opened Unit ArReader :=
  { s with archive := ((Shared.source scanner).next s.archive).2 }

/-- The session in which the member has been looked up and opened, and its first byte read. -/
def halfRead : Opened Unit ArReader :=
  Machine.after (Opened.call scanner) (readOn (Opened.new scanner pairReader false))
    [.openFileForReading 0 (), .read () 1]

theorem call_lookup_a :
    Opened.call scanner (Opened.new scanner pairReader false) (.index (.lookup (lit "a"))) =
      (.entry (.ok (some ⟨lit "a", 68, 2, false, 0⟩)), readOn (Opened.new scanner pairReader false)) := by
  have hfind : (Shared.source scanner).find (fun a => scanner.name a = lit "a")
      (Opened.new (κ := Unit) scanner pairReader false).archive =
        (.ok (some ⟨lit "a", 68, 2, false, 0⟩), (readOn (Opened.new scanner pairReader false)).archive) :=
    Loop.complete_of_run _ 2 rfl
  simp only [Opened.call, Lazy.Source.request, hfind]
  rfl

theorem call_lookup_b :
    Opened.call scanner halfRead (.index (.lookup (lit "b"))) = (.entry (.ok none), readOn halfRead) := by
  have hfind : (Shared.source scanner).find (fun a => scanner.name a = lit "b") halfRead.archive =
      (.ok none, (readOn halfRead).archive) :=
    Loop.complete_of_run _ 2 rfl
  simp only [Opened.call, Lazy.Source.request, hfind]
  rfl

theorem call_lookup_again :
    Opened.call scanner halfRead (.index (.lookup (lit "a"))) =
      (.entry (.ok (some ⟨lit "a", 68, 2, false, 0⟩)), halfRead) := by
  have hfind : (Shared.source scanner).find (fun a => scanner.name a = lit "a") halfRead.archive =
      (.ok (some ⟨lit "a", 68, 2, false, 0⟩), halfRead.archive) :=
    Loop.complete_of_run _ 1 rfl
  simp only [Opened.call, Lazy.Source.request, hfind]

theorem undisturbed_cons {s : Opened Unit ArReader} {c : MemberCall Unit} {calls : List (MemberCall Unit)}
    (hc : Undisturbed scanner s c)
    (hcalls : ∀ before a rest, calls = before ++ a :: rest →
      Undisturbed scanner (Machine.after (Opened.call scanner) (Opened.call scanner s c).2 before) a) :
    ∀ before a rest, c :: calls = before ++ a :: rest →
      Undisturbed scanner (Machine.after (Opened.call scanner) s before) a := by
  intro before a rest hsplit
  cases before with
  | nil =>
    cases hsplit
    exact hc
  | cons c' before =>
    obtain ⟨hfirst, hrest⟩ := List.cons.inj hsplit
    rw [← hfirst]
    exact hcalls before a rest hrest

/-- The member is looked up and opened, and looked up again before its last byte is read; when nothing is left of it,
another member is looked up. -/
theorem member_streams_independent_pair :
    let calls : List (MemberCall Unit) := [.index (.lookup (lit "a")), .openFileForReading 0 (), .read () 1,
      .index (.lookup (lit "a")), .read () 1, .index (.lookup (lit "b")), .read () 1]
    Machine.outputs (Opened.call scanner) (Opened.new scanner pairReader false) calls =
      Machine.outputs (Independent.call scanner) (Independent.new pairReader) calls := by
  refine (member_streams_independent false _).2 pairReader rfl wellFormed_pairReader ?_
  refine undisturbed_cons (.inr (.inr (.inr fun ch m hactive => by cases hactive))) ?_
  rw [call_lookup_a]
  refine undisturbed_cons trivial (undisturbed_cons trivial ?_)
  change ∀ before a rest, _ → Undisturbed scanner (Machine.after _ halfRead before) a
  refine undisturbed_cons (.inl ⟨⟨lit "a", 68, 2, false, 0⟩, rfl⟩) ?_
  rw [call_lookup_again]
  refine undisturbed_cons trivial (undisturbed_cons (.inr (.inr (.inr fun ch m _ hm => ?_))) ?_)
  · cases hm
    rfl
  · exact undisturbed_cons trivial fun before a rest hsplit => by simp at hsplit

theorem independent_lookup_a :
    Independent.call scanner (Independent.new (κ := Unit) pairReader) (.index (.lookup (lit "a"))) =
      (.entry (.ok (some ⟨lit "a", 68, 2, false, 0⟩)), Independent.new (readNextEntry pairReader).2) := by
  have hfind : scanner.source.find (fun a => scanner.name a = lit "a") (Independent.new (κ := Unit) pairReader).reader =
      (.ok (some ⟨lit "a", 68, 2, false, 0⟩), (readNextEntry pairReader).2) :=
    Loop.complete_of_run _ 2 rfl
  simp only [Independent.call, Lazy.Source.request, hfind]
  rfl

/-- The member is looked up and opened, a byte is read, another member is looked up, and a byte is read. -/
def pairCalls : List (MemberCall Unit) :=
  [.index (.lookup (lit "a")), .openFileForReading 0 (), .read () 1, .index (.lookup (lit "b")), .read () 1]

/-- Another lookup reads to the end of the file, and the next read of the member returns nothing. -/
theorem lookup_disturbs_member :
    scanner.WellFormed pairReader ∧
      Machine.outputs (Opened.call scanner) (Opened.new scanner pairReader false) pairCalls ≠
        Machine.outputs (Independent.call scanner) (Independent.new pairReader) pairCalls := by
  have hopened : (Machine.outputs (Opened.call scanner) (Opened.new scanner pairReader false) pairCalls)[4]? =
      some (.bytes []) := by
    simp only [pairCalls, Machine.outputs, call_lookup_a]
    change some (Opened.call scanner (Opened.call scanner halfRead (.index (.lookup (lit "b")))).2 (.read () 1)).1 = _
    rw [call_lookup_b]
    rfl
  have hindependent : (Machine.outputs (Independent.call scanner) (Independent.new pairReader) pairCalls)[4]? =
      some (.bytes [113]) := by
    simp only [pairCalls, Machine.outputs, independent_lookup_a]
    rfl
  refine ⟨wellFormed_pairReader, fun hsame => ?_⟩
  rw [hsame, hindependent] at hopened
  cases hopened

end ArReader

end Afl.Io.Archive
