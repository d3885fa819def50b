import Afl.Io.FileSystem.Soundness

/-!
# Moving an entry

After a successful `moveTo`, the node is found under its new name and not under the old one, and all other lookups give
what they gave before. There is one entry that is lost when it is moved: a file that is moved onto itself is erased
first, as the file to be replaced, and then there is nothing to be moved.
-/

namespace Afl.Io

open Run

namespace InternalFileSystem

variable {s s' : InternalFileSystem} {n l : Nat} {v : FileNode} {name newName : Bytes} {dir : Dir}

/-! ### Lookups -/

theorem findNode_eq_some (h : Linked s) :
    s.findNode l name = some (n, v) ↔ n ∈ s.lists l ∧ s.nodes n = some v ∧ v.name = name := by
  refine ⟨findNode_some, ?_⟩
  rintro ⟨hn, hv, hname⟩
  rcases hfind : s.findNode l name with _ | ⟨m, w⟩
  · exact absurd hname (findNode_none hfind n hn v hv)
  · obtain ⟨hm, hw, hsame⟩ := findNode_some hfind
    obtain rfl := h.unique hm hn hw hv (hsame.trans hname.symm)
    rw [hv] at hw
    rw [Option.some.inj hw]

theorem findNode_put (h : Linked s) (hput : Put s s' n l v) {l' m : Nat} {x : Bytes} {w : FileNode} :
    s'.findNode l' x = some (m, w) ↔
      m ≠ n ∧ s.findNode l' x = some (m, w) ∨ l' = l ∧ x = v.name ∧ m = n ∧ w = v := by
  rw [findNode_eq_some (h.put hput), findNode_eq_some h]
  by_cases hm : m = n
  · subst hm
    rw [hput.nodes_self]
    constructor
    · rintro ⟨hmem, hw, hx⟩
      cases hw
      exact .inr ⟨hput.list_of_mem hmem, hx.symm, rfl, rfl⟩
    · rintro (⟨hne, -⟩ | ⟨rfl, rfl, -, rfl⟩)
      · exact absurd rfl hne
      · exact ⟨(hput.lists m l').mpr (.inr ⟨rfl, rfl⟩), rfl, rfl⟩
  · rw [hput.nodes_of_ne hm]
    constructor
    · rintro ⟨hmem, hw⟩
      exact .inl ⟨hm, hput.mem_of_ne hm hmem, hw⟩
    · rintro (⟨-, hmem, hw⟩ | ⟨-, -, heq, -⟩)
      · exact ⟨(hput.lists m l').mpr (.inl ⟨hmem, hm⟩), hw⟩
      · exact absurd heq hm

theorem findNode_eraseNode (h : Linked s) (hn : n ∈ s.lists l) {l' m : Nat} {x : Bytes} {w : FileNode} :
    (s.eraseNode l n).findNode l' x = some (m, w) ↔ m ≠ n ∧ s.findNode l' x = some (m, w) := by
  rw [findNode_eq_some (linked_eraseNode h hn), findNode_eq_some h, mem_eraseNode h hn, eraseNode_nodes]
  constructor
  · rintro ⟨⟨hmem, hm⟩, hw, hx⟩
    rw [if_neg hm] at hw
    exact ⟨hm, hmem, hw, hx⟩
  · rintro ⟨hm, hmem, hw, hx⟩
    rw [if_neg hm]
    exact ⟨⟨hmem, hm⟩, hw, hx⟩

/-! ### What a move does -/

/-- The node `n` was moved from one name to another. -/
structure Moved (s s' : InternalFileSystem) (src : Nat) (name : Bytes) (dest : Nat) (newName : Bytes) (n : Nat)
    (v : FileNode) : Prop where
  moved : s'.findNode dest newName = some (n, { v with name := newName })
  gone : ¬(src = dest ∧ name = newName) → s'.findNode src name = none
  others : ∀ l x, ¬(l = src ∧ x = name) → ¬(l = dest ∧ x = newName) → s'.findNode l x = s.findNode l x
  replaced : ∀ m w, m ≠ n → s.findNode dest newName = some (m, w) → ∃ stream, w.content = .file stream

/-- `moveTo` on an entry meets its specification: it is defined, and it moves the node or changes nothing. -/
def Moves (s : InternalFileSystem) (dir : Dir) (name : Bytes) (dest : Option Dir) (newName : Bytes) (n : Nat)
    (v : FileNode) : Prop :=
  ∃ r, s.doMoveTo dir name dest newName = some r ∧
    ((∃ e, r.1 = .error e) ∧ r.2 = s ∨
      ∃ d, dest = some d ∧ r.1 = .ok () ∧ Moved s r.2 dir.content name d.content newName n v)

def OntoItself (dir : Dir) (name : Bytes) (dest : Option Dir) (newName : Bytes) (v : FileNode) : Prop :=
  ∃ d stream, dest = some d ∧ v.content = .file stream ∧ d.content = dir.content ∧ newName = name

theorem option_ext {α β : Type} {a b : Option (α × β)} (h : ∀ x y, a = some (x, y) ↔ b = some (x, y)) : a = b := by
  apply Option.ext
  rintro ⟨x, y⟩
  exact h x y

theorem moved_put {src dest : Nat} (h : Linked s) (hfind : s.findNode src name = some (n, v))
    (hput : Put s s' n dest { v with name := newName }) (hfree : s.findNode dest newName = none) :
    Moved s s' src name dest newName n v := by
  obtain ⟨hn, hv, hname⟩ := findNode_some hfind
  have hplace : ∀ {l x w}, s.findNode l x = some (n, w) → l = src ∧ x = name := by
    intro l x w hl
    obtain ⟨hmem, hw, hx⟩ := findNode_some hl
    rw [hv] at hw
    cases hw
    exact ⟨h.owner hmem hn, hx.symm.trans hname⟩
  refine ⟨(findNode_put h hput).mpr (.inr ⟨rfl, rfl, rfl, rfl⟩), ?_, ?_, ?_⟩
  · intro hdifferent
    rw [Option.eq_none_iff_forall_ne_some]
    rintro ⟨m, w⟩ hm
    rcases (findNode_put h hput).mp hm with ⟨hne, hm⟩ | ⟨hl, hx, -⟩
    · rw [hfind] at hm
      cases hm
      exact hne rfl
    · exact hdifferent ⟨hl, hx⟩
  · intro l x hsource hdest
    apply option_ext
    intro m w
    rw [findNode_put h hput]
    constructor
    · rintro (⟨-, hm⟩ | ⟨hl, hx, -⟩)
      · exact hm
      · exact absurd ⟨hl, hx⟩ hdest
    · intro hm
      refine .inl ⟨?_, hm⟩
      rintro rfl
      exact hsource (hplace hm)
  · intro m w _ hm
    rw [hfree] at hm
    cases hm

theorem Moved.of_eraseNode {src dest m : Nat} {w : FileNode} {stream : Nat} (h : Linked s)
    (hold : s.findNode dest newName = some (m, w)) (hw : w.content = .file stream)
    (hmoved : Moved (s.eraseNode dest m) s' src name dest newName n v) : Moved s s' src name dest newName n v := by
  obtain ⟨hm, hmw, hmname⟩ := findNode_some hold
  refine ⟨hmoved.moved, hmoved.gone, ?_, ?_⟩
  · intro l x hsource hdest
    rw [hmoved.others l x hsource hdest]
    apply option_ext
    intro m' w'
    rw [findNode_eraseNode h hm]
    refine ⟨And.right, fun hm' => ⟨?_, hm'⟩⟩
    rintro rfl
    obtain ⟨hmem, hw', hx⟩ := findNode_some hm'
    rw [hmw] at hw'
    cases hw'
    exact hdest ⟨h.owner hmem hm, hx.symm.trans hmname⟩
  · intro m' w' _ hm'
    rw [hold] at hm'
    cases hm'
    exact ⟨stream, hw⟩

theorem doMoveTo_eq_none_iff (h : Linked s) {dest : Option Dir} (hfind : s.findNode dir.content name = some (n, v)) :
    s.doMoveTo dir name dest newName = none ↔ OntoItself dir name dest newName v := by
  obtain ⟨hn, hv, hname⟩ := findNode_some hfind
  have hmove : ∀ d : Nat, s.moveNode dir.content n d newName ≠ none := by
    intro d
    rw [moveNode, if_pos hn]
    exact Option.some_ne_none _
  cases dest with
  | none =>
    refine ⟨fun hnone => (by cases hnone), ?_⟩
    rintro ⟨d, stream, hd, -⟩
    cases hd
  | some d =>
    rw [doMoveTo, hfind]
    obtain ⟨nodeName, stream | content⟩ := v
    · rcases hnew : s.findNode d.content newName with _ | ⟨m, destName, stream' | content⟩
      · simp only
        refine ⟨fun hnone => absurd hnone (hmove d.content), ?_⟩
        rintro ⟨d', stream', hd, -, hcontent, rfl⟩
        cases hd
        rw [hcontent, hfind] at hnew
        cases hnew
      · obtain ⟨hm, hw, hdest⟩ := findNode_some hnew
        simp only [moveNode, mem_eraseNode h hm, hn, true_and]
        constructor
        · intro hnone
          split_ifs at hnone with hne
          obtain rfl : n = m := not_not.mp hne
          rw [hv] at hw
          cases hw
          exact ⟨d, stream, rfl, rfl, h.owner hm hn, hdest.symm.trans hname⟩
        · rintro ⟨d', stream', hd, -, hcontent, rfl⟩
          cases hd
          rw [hcontent, hfind] at hnew
          cases hnew
          exact if_neg (not_not.mpr rfl)
      · simp only
        refine ⟨fun hnone => (by cases hnone), ?_⟩
        rintro ⟨d', stream', hd, -, hcontent, rfl⟩
        cases hd
        rw [hcontent, hfind] at hnew
        cases hnew
    · refine ⟨fun hnone => ?_, ?_⟩
      · rcases hnew : s.findNode d.content newName with _ | w
        · simp only [hnew] at hnone
          exact absurd hnone (hmove d.content)
        · simp only [hnew] at hnone
          cases hnone
      · rintro ⟨d', stream', -, hcontent, -⟩
        cases hcontent

theorem moves_iff (h : Linked s) {dest : Option Dir} (hdest : ∀ d, dest = some d → d.content ∈ s.directories)
    (hfind : s.findNode dir.content name = some (n, v)) :
    s.Moves dir name dest newName n v ↔ ¬OntoItself dir name dest newName v := by
  rw [← doMoveTo_eq_none_iff h hfind]
  constructor
  · rintro ⟨r, hr, -⟩ hnone
    rw [hnone] at hr
    cases hr
  · intro hdefined
    obtain ⟨r, hr⟩ := Option.ne_none_iff_exists'.mp hdefined
    refine ⟨r, hr, ?_⟩
    rcases doMoveTo_cases h hr with ⟨e, rfl⟩ | ⟨d, n', v', rfl, hfind', hok, hmoved⟩
    · exact .inl ⟨⟨e, rfl⟩, rfl⟩
    · rw [hfind] at hfind'
      cases hfind'
      have hd := hdest d rfl
      obtain ⟨hn, hv, -⟩ := findNode_some hfind
      refine .inr ⟨d, rfl, hok, ?_⟩
      rcases hmoved with ⟨hnew, hstate⟩ | ⟨m, w, stream, stream', hnew, hne, -, hw, hstate⟩
      · rw [hstate]
        exact moved_put h hfind (put_move h hn hv hd (findNode_none hnew)) hnew
      · obtain ⟨hm, -⟩ := findNode_some hnew
        rw [hstate]
        refine Moved.of_eraseNode h hnew hw ?_
        refine moved_put (linked_eraseNode h hm) ?_ (put_replace h hn hv hd hnew hne) ?_
        · exact (findNode_eraseNode h hm).mpr ⟨Ne.symm hne, hfind⟩
        · rw [Option.eq_none_iff_forall_ne_some]
          rintro ⟨m', w'⟩ hm'
          obtain ⟨hne', hm'⟩ := (findNode_eraseNode h hm).mp hm'
          rw [hnew] at hm'
          cases hm'
          exact hne' rfl

end InternalFileSystem

/-- **A move puts the node under its new name and leaves everything else alone**, or it fails and changes nothing, in
every file system that can be reached, unless it is a file that is moved onto itself. -/
theorem moves_iff_not_ontoItself (calls : List FileSystemCall) {s : InternalFileSystem}
    (hs : final InternalFileSystem.step InternalFileSystem.new calls = some s) (dir : Dir) (name : Bytes)
    (dest : Option Dir) (hdest : ∀ d, dest = some d → d.content ∈ s.directories) (newName : Bytes) {n : Nat} {v : FileNode}
    (hfind : s.findNode dir.content name = some (n, v)) :
    s.Moves dir name dest newName n v ↔ ¬InternalFileSystem.OntoItself dir name dest newName v :=
  InternalFileSystem.moves_iff (of_final InternalFileSystem.linked_step InternalFileSystem.linked_new hs) hdest hfind

theorem moves_iff_not_ontoItself_file :
    ∃ s, final InternalFileSystem.step InternalFileSystem.new
        [.createDirectory (lit "d"), .openFile (lit "a") .create] = some s ∧
      s.findNode 0 (lit "a") = some (2, ⟨lit "a", .file 2⟩) ∧
      s.Moves ⟨lit "/", 0⟩ (lit "a") (some ⟨lit "/d", 1⟩) (lit "b") 2 ⟨lit "a", .file 2⟩ := by
  refine ⟨_, rfl, by decide, ?_⟩
  refine (moves_iff_not_ontoItself [.createDirectory (lit "d"), .openFile (lit "a") .create] rfl
    ⟨lit "/", 0⟩ (lit "a") (some ⟨lit "/d", 1⟩) ?_ (lit "b") (by decide)).mpr ?_
  · intro d hd
    cases hd
    decide
  · rintro ⟨d, stream, hd, -, hcontent, -⟩
    cases hd
    cases hcontent

/-- File "a" is moved onto itself: it is erased as the destination, then its null pointer is used. -/
theorem file_moved_onto_itself :
    ∃ s, final InternalFileSystem.step InternalFileSystem.new [.openFile (lit "a") .create] = some s ∧
      s.findNode 0 (lit "a") = some (1, ⟨lit "a", .file 1⟩) ∧
      ¬s.Moves ⟨lit "/", 0⟩ (lit "a") (some ⟨lit "/", 0⟩) (lit "a") 1 ⟨lit "a", .file 1⟩ := by
  refine ⟨_, rfl, by decide, ?_⟩
  rintro ⟨r, hr, -⟩
  cases hr

end Afl.Io
