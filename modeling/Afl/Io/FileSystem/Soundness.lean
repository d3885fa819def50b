import Afl.Io.FileSystem.Tree

/-!
# What keeps the tree in order

All calls keep the tree in order, except that `".."` is accepted as a name, that `moveTo` does not look at the new name
at all, and that it moves a directory below itself when it is asked to. These are exactly the calls after which the
tree is not a tree with good names any more.
-/

namespace Afl.Io

open Relation Run

/-- The modes in which a file is created that does not exist. -/
def OpenMode.creates : OpenMode → Bool
  | .openRead | .openWrite => false
  | .create | .createNew => true

namespace InternalFileSystem

variable {s : InternalFileSystem} {dir : Dir} {name newName : Bytes}

/-- A call on an entry that leaves the tree in order. -/
def EntryKeeps (s : InternalFileSystem) (dir : Dir) (name : Bytes) : EntryCall → Prop
  | .openFile mode => mode.creates = true → name ≠ lit ".."
  | .createAsDirectory => name ≠ lit ".."
  | .rename newName => (s.findNode dir.content name).isSome → newName ≠ lit ".."
  | .erase => True
  | .moveTo dest newName =>
    ∀ d n v, dest = some d → s.findNode dir.content name = some (n, v) →
      GoodName newName ∧
        (s.findNode d.content newName = none → ¬ReflTransGen s.Edge (.node n) (.list d.content))

/-- No name that is given to a node is bad, and no directory is moved below itself. -/
def Keeps (s : InternalFileSystem) : FileSystemCall → Prop
  | .createDirectory dirName =>
    ∀ dir name, s.findDirectory (prepareFileName dirName) dirName = .ok (dir, name) → name ≠ lit ".."
  | .openFile fileName mode =>
    ∀ dir name, s.findDirectory (prepareFileName fileName) fileName = .ok (dir, name) → mode.creates = true →
      name ≠ lit ".."
  | .entry dir name call => s.EntryKeeps dir name call

/-! ### What a call can change -/

/-- The elementary changes. A node gets a new name only if the name is in `G`, and a directory gets another place only if
it is in `B`. -/
inductive Change (G : Bytes → Prop) (B : InternalFileSystem → Nat → Nat → Prop) (s : InternalFileSystem) :
    InternalFileSystem → Prop
  | put {s' : InternalFileSystem} {n l : Nat} {v : FileNode} (h : Put s s' n l v)
    (hname : G v.name ∨ ∃ w, s.nodes n = some w ∧ w.name = v.name)
    (hplace : ∀ name c, s.nodes n = some ⟨name, .directory c⟩ → n ∈ s.lists l ∨ B s n l) : Change G B s s'
  | newDirectory {l : Nat} {name : Bytes} (hl : l ∈ s.directories) (hfree : s.Free l name) (hname : G name) :
    Change G B s (s.newDirectory l name)
  | erase {l n : Nat} (hn : n ∈ s.lists l) : Change G B s (s.eraseNode l n)

/-- A call on an entry gives out only names in `G` and moves directories only as `B` permits. -/
def EntryPermits (G : Bytes → Prop) (B : InternalFileSystem → Nat → Nat → Prop) (s : InternalFileSystem) (dir : Dir)
    (name : Bytes) : EntryCall → Prop
  | .openFile mode => mode.creates = true → G name
  | .createAsDirectory => G name
  | .rename newName => verifyFileNameComponent newName = true → (s.findNode dir.content name).isSome → G newName
  | .erase => True
  | .moveTo dest newName =>
    ∀ d n v, dest = some d → s.findNode dir.content name = some (n, v) →
      G newName ∧ (s.findNode d.content newName = none → B s n d.content)

def Permits (G : Bytes → Prop) (B : InternalFileSystem → Nat → Nat → Prop) (s : InternalFileSystem) :
    FileSystemCall → Prop
  | .createDirectory dirName =>
    ∀ dir name, s.findDirectory (prepareFileName dirName) dirName = .ok (dir, name) →
      verifyFileNameComponent name = true → G name
  | .openFile fileName mode =>
    ∀ dir name, s.findDirectory (prepareFileName fileName) fileName = .ok (dir, name) →
      verifyFileNameComponent name = true → mode.creates = true → G name
  | .entry dir name call => verifyFileNameComponent name = true → EntryPermits G B s dir name call

variable {s' : InternalFileSystem} {a : FileSystemCall}

section

variable {G : Bytes → Prop} {B : InternalFileSystem → Nat → Nat → Prop}

theorem changes_openIn (h : Linked s) (hdir : dir.content ∈ s.directories) {mode : OpenMode}
    (hG : verifyFileNameComponent name = true → mode.creates = true → G name) (fullName : Bytes) :
    ReflTransGen (Change G B) s (s.openIn dir name fullName mode).2 := by
  rw [openIn.eq_def]
  by_cases hverify : verifyFileNameComponent name = true
  · rw [if_neg (by rw [hverify]; decide)]
    rcases hfind : s.findNode dir.content name with _ | ⟨n, nodeName, stream | content⟩
    · have hnew : mode.creates = true → ReflTransGen (Change G B) s (s.newFile dir.content name) := by
        intro hmode
        refine .single (.put (put_newFile h hdir (findNode_none hfind)) (.inl (hG hverify hmode)) ?_)
        intro name' c hsome
        rw [h.nodes_next] at hsome
        cases hsome
      cases mode with
      | openRead => exact .refl
      | openWrite => exact .refl
      | create => exact hnew rfl
      | createNew => exact hnew rfl
    · cases mode with
      | openRead => exact .refl
      | openWrite => exact .refl
      | create =>
        obtain ⟨hn, hv, -⟩ := findNode_some hfind
        exact .single (.put (put_resetContent h hn hv) (.inr ⟨_, hv, rfl⟩) fun _ _ _ => .inl hn)
      | createNew => exact .refl
    · exact .refl
  · rw [if_pos (by simpa using hverify)]

theorem changes_doCreateAsDirectory (hdir : dir.content ∈ s.directories) (hG : G name) :
    ReflTransGen (Change G B) s (s.doCreateAsDirectory dir name).2 := by
  rw [doCreateAsDirectory]
  split_ifs with hfind
  · exact .refl
  · exact .single (.newDirectory hdir (findNode_none (Option.not_isSome_iff_eq_none.mp hfind)) hG)

theorem changes_doErase (s : InternalFileSystem) (dir : Dir) (name : Bytes) :
    ReflTransGen (Change G B) s (s.doErase dir name).2 := by
  rw [doErase]
  rcases hfind : s.findNode dir.content name with _ | ⟨n, nodeName, stream | content⟩
  · exact .refl
  · exact .single (.erase (findNode_some hfind).1)
  · simp only
    split_ifs
    · exact .refl
    · exact .single (.erase (findNode_some hfind).1)

theorem changes_doRename (h : Linked s)
    (hG : verifyFileNameComponent newName = true → (s.findNode dir.content name).isSome → G newName) :
    ReflTransGen (Change G B) s (s.doRename dir name newName).2 := by
  rw [doRename]
  by_cases hverify : verifyFileNameComponent newName = true
  · rw [if_neg (by rw [hverify]; decide)]
    rcases hfind : s.findNode dir.content name with _ | ⟨n, v⟩
    · exact .refl
    · obtain ⟨hn, hv, -⟩ := findNode_some hfind
      have hname : G newName := hG hverify (by rw [hfind]; rfl)
      have hset : s.Free dir.content newName → Change G B s (s.setName n newName) := fun hfree =>
        .put (put_setName h hn hv hfree) (.inl hname) fun _ _ _ => .inl hn
      by_cases hsame : newName = name
      · simp only [hsame, ne_eq, not_true_eq_false, if_false]
        exact .refl
      · simp only [hsame, ne_eq, not_false_eq_true, if_true]
        rcases hcontent : v.content with stream | content
        · rcases hnew : s.findNode dir.content newName with _ | ⟨m, nodeName, stream' | content⟩
          · exact .single (hset (findNode_none hnew))
          · simp only
            split_ifs with hm
            · exact .refl
            · obtain ⟨hmem, -⟩ := findNode_some hnew
              have hleft : n ∈ (s.eraseNode dir.content m).lists dir.content :=
                (mem_eraseNode h hmem).mpr ⟨hn, Ne.symm hm⟩
              have hv' : (s.eraseNode dir.content m).nodes n = some v := by
                rw [eraseNode_nodes, if_neg (Ne.symm hm), hv]
              have hput := put_setName (linked_eraseNode h hmem) hleft hv' (free_eraseNode h hnew)
              exact .tail (.single (.erase hmem)) (.put hput (.inl hname) fun _ _ _ => .inl hleft)
          · exact .refl
        · rcases hnew : s.findNode dir.content newName with _ | w
          · exact .single (hset (findNode_none hnew))
          · exact .refl
  · rw [if_pos (by simpa using hverify)]

theorem moveNode_cases {n src dest : Nat} {r : Result Unit} (hr : s.moveNode src n dest newName = some r) :
    n ∈ s.lists src ∧ r = (.ok (), (s.relink src dest n).setName n newName) := by
  rw [moveNode] at hr
  split_ifs at hr with hn
  cases hr
  exact ⟨hn, rfl⟩

/-- What `moveTo` can do: nothing, move the node, or erase a file and move a file in its place. -/
theorem doMoveTo_cases (h : Linked s) {dest : Option Dir} {r : Result Unit}
    (hr : s.doMoveTo dir name dest newName = some r) :
    (∃ e, r = (.error e, s)) ∨
      ∃ d n v, dest = some d ∧ s.findNode dir.content name = some (n, v) ∧ r.1 = .ok () ∧
        (s.findNode d.content newName = none ∧ r.2 = (s.relink dir.content d.content n).setName n newName ∨
          ∃ m w stream stream', s.findNode d.content newName = some (m, w) ∧ m ≠ n ∧ v.content = .file stream ∧
            w.content = .file stream' ∧
            r.2 = ((s.eraseNode d.content m).relink dir.content d.content n).setName n newName) := by
  cases dest with
  | none =>
    cases hr
    exact .inl ⟨_, rfl⟩
  | some d =>
    rw [doMoveTo] at hr
    rcases hfind : s.findNode dir.content name with _ | ⟨n, nodeName, stream | content⟩
    · rw [hfind] at hr
      cases hr
      exact .inl ⟨_, rfl⟩
    · rw [hfind] at hr
      rcases hnew : s.findNode d.content newName with _ | ⟨m, destName, stream' | content⟩
      · simp only [hnew] at hr
        obtain ⟨-, rfl⟩ := moveNode_cases hr
        exact .inr ⟨d, n, _, rfl, rfl, rfl, .inl ⟨hnew, rfl⟩⟩
      · simp only [hnew] at hr
        obtain ⟨hleft, rfl⟩ := moveNode_cases hr
        obtain ⟨hm, -⟩ := findNode_some hnew
        have hne := ((mem_eraseNode h hm).mp hleft).2
        exact .inr ⟨d, n, _, rfl, rfl, rfl, .inr ⟨m, _, stream, stream', hnew, hne.symm, rfl, rfl, rfl⟩⟩
      · simp only [hnew] at hr
        cases hr
        exact .inl ⟨_, rfl⟩
    · rw [hfind] at hr
      rcases hnew : s.findNode d.content newName with _ | w
      · simp only [hnew] at hr
        obtain ⟨-, rfl⟩ := moveNode_cases hr
        exact .inr ⟨d, n, _, rfl, rfl, rfl, .inl ⟨hnew, rfl⟩⟩
      · simp only [hnew] at hr
        cases hr
        exact .inl ⟨_, rfl⟩

theorem put_replace {n m dest src : Nat} {v w : FileNode} (h : Linked s) (hn : n ∈ s.lists src)
    (hv : s.nodes n = some v) (hdest : dest ∈ s.directories) (hfind : s.findNode dest newName = some (m, w))
    (hne : m ≠ n) :
    Put (s.eraseNode dest m) (((s.eraseNode dest m).relink src dest n).setName n newName) n dest
      { v with name := newName } := by
  obtain ⟨hm, -⟩ := findNode_some hfind
  have hleft : n ∈ (s.eraseNode dest m).lists src := (mem_eraseNode h hm).mpr ⟨hn, Ne.symm hne⟩
  have hv' : (s.eraseNode dest m).nodes n = some v := by
    rw [eraseNode_nodes, if_neg (Ne.symm hne), hv]
  exact put_move (linked_eraseNode h hm) hleft hv' hdest (free_eraseNode h hfind)

theorem changes_doMoveTo (h : Linked s) {dest : Option Dir} (hdest : ∀ d, dest = some d → d.content ∈ s.directories)
    (hpermits : EntryPermits G B s dir name (.moveTo dest newName)) {r : Result Unit}
    (hr : s.doMoveTo dir name dest newName = some r) : ReflTransGen (Change G B) s r.2 := by
  rcases doMoveTo_cases h hr with ⟨e, rfl⟩ | ⟨d, n, v, rfl, hfind, -, hmoved⟩
  · exact .refl
  · have hd := hdest d rfl
    obtain ⟨hname, hplace⟩ := hpermits d n v rfl hfind
    obtain ⟨hn, hv, -⟩ := findNode_some hfind
    rcases hmoved with ⟨hnew, hstate⟩ | ⟨m, w, stream, stream', hnew, hne, hfile, -, hstate⟩
    · rw [hstate]
      exact .single (.put (put_move h hn hv hd (findNode_none hnew)) (.inl hname) fun _ _ _ => .inr (hplace hnew))
    · rw [hstate]
      refine .tail (.single (.erase (findNode_some hnew).1)) (.put (put_replace h hn hv hd hnew hne) (.inl hname) ?_)
      intro name' c hsome
      obtain ⟨-, hsome⟩ := nodes_of_eraseNode hsome
      rw [hv] at hsome
      cases hsome
      cases hfile

theorem findDirectoryLoop_mem (h : Linked s) {fullName : Bytes} {fuel : Nat} {pathName : Bytes} {r : Dir × Bytes}
    (hdir : dir.content ∈ s.directories) (hr : s.findDirectoryLoop fullName fuel dir pathName = .ok r) :
    r.1.content ∈ s.directories := by
  induction fuel generalizing dir pathName with
  | zero =>
    cases hr
    exact hdir
  | succ fuel ih =>
    rw [findDirectoryLoop] at hr
    by_cases hslash : slash ∈ pathName
    · simp only [if_pos hslash] at hr
      by_cases hdot : pathName.takeWhile (· ≠ slash) = lit "."
      · rw [if_pos hdot] at hr
        exact ih hdir hr
      · rw [if_neg hdot] at hr
        rcases hfind : s.findNode dir.content (pathName.takeWhile (· ≠ slash)) with _ | ⟨n, nodeName, stream | content⟩
        · simp only [hfind] at hr
          cases hr
        · simp only [hfind] at hr
          cases hr
        · simp only [hfind] at hr
          exact ih (h.content (findNode_some hfind).2.1) hr
    · rw [if_neg hslash] at hr
      cases hr
      exact hdir

theorem findDirectory_mem (h : Linked s) {pathName fullName : Bytes}
    (hr : s.findDirectory pathName fullName = .ok (dir, name)) : dir.content ∈ s.directories :=
  findDirectoryLoop_mem (r := (dir, name)) h h.root hr

theorem openDirectory_mem (h : Linked s) {dirName : Bytes} (hr : s.openDirectory dirName = .ok dir) :
    dir.content ∈ s.directories := by
  rw [openDirectory] at hr
  rcases hfind : s.findDirectory (prepareFileName dirName) dirName with e | ⟨parent, name⟩
  · rw [hfind] at hr
    cases hr
  · rw [hfind] at hr
    dsimp only at hr
    split_ifs at hr
    · rcases hnode : s.findNode parent.content name with _ | ⟨n, nodeName, stream | content⟩
      · rw [hnode] at hr
        cases hr
      · rw [hnode] at hr
        cases hr
      · rw [hnode] at hr
        cases hr
        exact h.content (findNode_some hnode).2.1
    · cases hr
      exact findDirectory_mem h hfind

theorem changes_step (hstep : s.step a = some s') (h : Linked s)
    (hpermits : Permits G B s a) : ReflTransGen (Change G B) s s' := by
  rw [step.eq_def] at hstep
  split_ifs at hstep with hdirs
  cases a with
  | createDirectory dirName =>
    cases hstep
    rw [createDirectory]
    rcases hfind : s.findDirectory (prepareFileName dirName) dirName with e | ⟨dir, name⟩
    · exact .refl
    · simp only
      split_ifs with hverify
      · exact .refl
      · exact changes_doCreateAsDirectory (findDirectory_mem h hfind) (hpermits dir name hfind (by simpa using hverify))
  | openFile fileName mode =>
    cases hstep
    rw [openFile]
    rcases hfind : s.findDirectory (prepareFileName fileName) fileName with e | ⟨dir, name⟩
    · exact .refl
    · exact changes_openIn h (findDirectory_mem h hfind) (hpermits dir name hfind) fileName
  | entry dir name call =>
    simp only at hstep
    split_ifs at hstep with hverify
    · have hentry := hpermits hverify
      cases call with
      | openFile mode =>
        cases hstep
        exact changes_openIn h (hdirs dir List.mem_cons_self) (fun _ => hentry) _
      | rename newName =>
        cases hstep
        exact changes_doRename h hentry
      | erase =>
        cases hstep
        exact changes_doErase s dir name
      | createAsDirectory =>
        cases hstep
        exact changes_doCreateAsDirectory (hdirs dir List.mem_cons_self) hentry
      | moveTo dest newName =>
        obtain ⟨r, hr, rfl⟩ := Option.map_eq_some_iff.mp hstep
        refine changes_doMoveTo h ?_ hentry hr
        rintro d rfl
        exact hdirs d (List.mem_cons_of_mem dir List.mem_cons_self)
    · cases hstep
      exact .refl

/-! ### Calls that keep the tree in order -/

theorem linked_changes (hchanges : ReflTransGen (Change G B) s s') (h : Linked s) :
    Linked s' := by
  induction hchanges with
  | refl => exact h
  | tail _ hchange ih =>
    cases hchange with
    | put hput => exact ih.put hput
    | newDirectory hl hfree => exact linked_newDirectory ih hl hfree
    | erase hn => exact linked_eraseNode ih hn

end

theorem linked_step (hstep : s.step a = some s') (h : Linked s) :
    Linked s' := by
  have hpermits : Permits (fun _ => True) (fun _ _ _ => True) s a := by
    cases a with
    | createDirectory dirName => exact fun _ _ _ _ => trivial
    | openFile fileName mode => exact fun _ _ _ _ _ => trivial
    | entry dir name call =>
      intro _
      cases call with
      | openFile mode => exact fun _ => trivial
      | createAsDirectory => trivial
      | rename newName => exact fun _ _ => trivial
      | erase => trivial
      | moveTo dest newName => exact fun _ _ _ _ _ => ⟨trivial, fun _ => trivial⟩
  exact linked_changes (changes_step hstep h hpermits) h

/-- The place is not below the node. -/
def NotBelow (s : InternalFileSystem) (n l : Nat) : Prop := ¬ReflTransGen s.Edge (.node n) (.list l)

theorem sound_change (hchange : Change GoodName NotBelow s s') (h : Sound s) : Sound s' := by
  cases hchange with
  | @put _ n l v hput hname hplace =>
    have hbelow : NotBelow s n l := by
      intro hpath
      refine absurd hpath (not_below (fun name c hsome => ?_) l)
      rcases hplace name c hsome with hn | hbelow
      · have hedge : s.Edge (.list l) (.node n) := hn
        exact h.forest.acyclic (.list l) (TransGen.head' hedge hpath)
      · exact hbelow hpath
    refine ⟨h.toLinked.put hput, h.forest.put hput hbelow, ?_⟩
    intro m w hw
    rw [hput.nodes] at hw
    split_ifs at hw with hm
    · cases hw
      rcases hname with hgood | ⟨w, hw, hsame⟩
      · exact hgood
      · rw [← hsame]
        exact h.good hw
    · exact h.good hw
  | newDirectory hl hfree hname =>
    refine ⟨linked_newDirectory h.toLinked hl hfree, forest_newDirectory h.toLinked h.forest hl hfree, ?_⟩
    intro m w hw
    rw [newDirectory_nodes] at hw
    split_ifs at hw
    · cases hw
      exact hname
    · exact h.good hw
  | erase hn =>
    refine ⟨linked_eraseNode h.toLinked hn, forest_eraseNode h.toLinked h.forest hn, ?_⟩
    exact fun hw => h.good (nodes_of_eraseNode hw).2

theorem permits_of_keeps (hkeeps : s.Keeps a) : Permits GoodName NotBelow s a := by
  cases a with
  | createDirectory dirName =>
    exact fun dir name hfind hverify => goodName_iff.mpr ⟨hverify, hkeeps dir name hfind⟩
  | openFile fileName mode =>
    exact fun dir name hfind hverify hmode => goodName_iff.mpr ⟨hverify, hkeeps dir name hfind hmode⟩
  | entry dir name call =>
    intro hverify
    cases call with
    | openFile mode => exact fun hmode => goodName_iff.mpr ⟨hverify, hkeeps hmode⟩
    | createAsDirectory => exact goodName_iff.mpr ⟨hverify, hkeeps⟩
    | rename newName => exact fun hnew hfind => goodName_iff.mpr ⟨hnew, hkeeps hfind⟩
    | erase => trivial
    | moveTo dest newName => exact hkeeps

theorem sound_step (hstep : s.step a = some s') (h : Sound s) (hkeeps : s.Keeps a) : Sound s' := by
  have hchanges := changes_step hstep h.toLinked (permits_of_keeps hkeeps)
  clear hstep
  induction hchanges with
  | refl => exact h
  | tail _ hchange ih => exact sound_change hchange ih

/-! ### Calls that do not -/

theorem not_goodName_dotDot : ¬GoodName (lit "..") := fun h => h.notDotDot rfl

theorem verify_dotDot : verifyFileNameComponent (lit "..") = true := by decide

theorem not_isTree_of_name {n : Nat} {v : FileNode} (hv : s'.nodes n = some v)
    (hbad : ¬GoodName v.name) : ¬IsTree s' := fun htree => hbad (htree.good hv)

theorem findNode_bad (h : Sound s) (hbad : ¬GoodName name) (l : Nat) : s.findNode l name = none := by
  rcases hfind : s.findNode l name with _ | ⟨n, v⟩
  · rfl
  · obtain ⟨-, hv, hname⟩ := findNode_some hfind
    exact absurd (hname ▸ h.good hv) hbad

theorem not_isTree_newFile (s : InternalFileSystem) (l : Nat) : ¬IsTree (s.newFile l (lit "..")) :=
  not_isTree_of_name (n := s.next) (v := ⟨lit "..", .file s.next⟩) (Function.update_self s.next _ s.nodes)
    not_goodName_dotDot

theorem not_isTree_newDirectory (s : InternalFileSystem) (l : Nat) : ¬IsTree (s.newDirectory l (lit "..")) :=
  not_isTree_of_name (n := s.next) (v := ⟨lit "..", .directory s.next⟩) (Function.update_self s.next _ s.nodes)
    not_goodName_dotDot

theorem not_isTree_setName {n : Nat} (hn : (s.nodes n).isSome) (hbad : ¬GoodName newName) :
    ¬IsTree (s.setName n newName) := by
  obtain ⟨v, hv⟩ := Option.isSome_iff_exists.mp hn
  refine not_isTree_of_name (n := n) (v := { v with name := newName }) ?_ hbad
  rw [setName_nodes hv, if_pos rfl]

theorem not_isTree_openIn (h : Sound s) (dir : Dir) (fullName : Bytes) {mode : OpenMode} (hmode : mode.creates = true) :
    ¬IsTree (s.openIn dir (lit "..") fullName mode).2 := by
  have hfree := findNode_bad h not_goodName_dotDot dir.content
  have hopen : (s.openIn dir (lit "..") fullName mode).2 = s.newFile dir.content (lit "..") := by
    rw [openIn.eq_def, if_neg (by decide), hfree]
    cases mode with
    | openRead => cases hmode
    | openWrite => cases hmode
    | create => rfl
    | createNew => rfl
  rw [hopen]
  exact s.not_isTree_newFile dir.content

theorem not_isTree_doCreateAsDirectory (h : Sound s) (dir : Dir) :
    ¬IsTree (s.doCreateAsDirectory dir (lit "..")).2 := by
  rw [doCreateAsDirectory, findNode_bad h not_goodName_dotDot]
  exact s.not_isTree_newDirectory dir.content

theorem not_isTree_doRename (h : Sound s) (hfind : (s.findNode dir.content name).isSome) :
    ¬IsTree (s.doRename dir name (lit "..")).2 := by
  obtain ⟨⟨n, v⟩, hn⟩ := Option.isSome_iff_exists.mp hfind
  obtain ⟨hmem, hv, hname⟩ := findNode_some hn
  have hne : lit ".." ≠ name := by
    rintro rfl
    exact not_goodName_dotDot (hname ▸ h.good hv)
  have hrename : (s.doRename dir name (lit "..")).2 = s.setName n (lit "..") := by
    rw [doRename, if_neg (by decide), hn, findNode_bad h not_goodName_dotDot]
    simp only [if_pos hne]
    cases v.content with
    | file stream => rfl
    | directory content => rfl
  rw [hrename]
  exact not_isTree_setName (by rw [hv]; rfl) not_goodName_dotDot

theorem not_isTree_below {n l : Nat} {v : FileNode} (h : Sound s) (hput : Put s s' n l v)
    (hbelow : ReflTransGen s.Edge (.node n) (.list l)) : ¬IsTree s' := by
  -- the path down to the destination does not come back to the node, so it is still there
  have hpath : ∀ x, ReflTransGen s.Edge (.node n) x → ReflTransGen s'.Edge (.node n) x := by
    intro x hx
    induction hx with
    | refl => exact ReflTransGen.refl
    | tail hstart hlast ih =>
      refine ih.tail ((hput.edge _ _).mpr (.inl ⟨hlast, ?_⟩))
      rintro rfl
      exact h.forest.acyclic _ (TransGen.tail' hstart hlast)
  intro htree
  refine htree.acyclic (.list l) ?_
  exact TransGen.head' ((hput.edge (.list l) (.node n)).mpr (.inr ⟨rfl, rfl⟩)) (hpath _ hbelow)

theorem not_isTree_doMoveTo (h : Sound s) {dest : Option Dir}
    (hdest : ∀ d, dest = some d → d.content ∈ s.directories) (hkeeps : ¬s.EntryKeeps dir name (.moveTo dest newName))
    {r : Result Unit} (hr : s.doMoveTo dir name dest newName = some r) : ¬IsTree r.2 := by
  simp only [EntryKeeps, not_forall] at hkeeps
  obtain ⟨d, n, v, rfl, hfind, hkeeps⟩ := hkeeps
  obtain ⟨hmem, hv, -⟩ := findNode_some hfind
  -- in both cases, there is no node of the new name
  have hnew : s.findNode d.content newName = none := by
    by_contra hsome
    refine hkeeps ⟨?_, fun hnone => absurd hnone hsome⟩
    by_contra hbad
    exact hsome (findNode_bad h hbad d.content)
  have hmove : s.doMoveTo dir name (some d) newName = s.moveNode dir.content n d.content newName := by
    rw [doMoveTo, hfind, hnew]
    obtain ⟨nodeName, stream | content⟩ := v
    · rfl
    · rfl
  rw [hmove, moveNode, if_pos hmem] at hr
  cases hr
  by_cases hgood : GoodName newName
  · have hbelow : ReflTransGen s.Edge (.node n) (.list d.content) :=
      not_not.mp fun hbelow => hkeeps ⟨hgood, fun _ => hbelow⟩
    exact not_isTree_below h (put_move h.toLinked hmem hv (hdest d rfl) (findNode_none hnew)) hbelow
  · refine not_isTree_setName ?_ hgood
    show (s.nodes n).isSome
    rw [hv]
    rfl

theorem not_isTree_step (hstep : s.step a = some s') (h : Sound s) (hkeeps : ¬s.Keeps a) : ¬IsTree s' := by
  have hverify : ∀ {dir : Dir} {name : Bytes}, (s.findNode dir.content name).isSome →
      verifyFileNameComponent name = true := by
    intro dir name hsome
    obtain ⟨⟨n, v⟩, hfind⟩ := Option.isSome_iff_exists.mp hsome
    obtain ⟨-, hv, rfl⟩ := findNode_some hfind
    exact (goodName_iff.mp (h.good hv)).1
  rw [step.eq_def] at hstep
  split_ifs at hstep with hdirs
  cases a with
  | createDirectory dirName =>
    cases hstep
    simp only [Keeps, not_forall, not_not] at hkeeps
    obtain ⟨dir, name, hfind, rfl⟩ := hkeeps
    rw [createDirectory, hfind]
    simp only [verify_dotDot]
    exact not_isTree_doCreateAsDirectory h dir
  | openFile fileName mode =>
    cases hstep
    simp only [Keeps, not_forall, not_not] at hkeeps
    obtain ⟨dir, name, hfind, hmode, rfl⟩ := hkeeps
    rw [openFile, hfind]
    exact not_isTree_openIn h dir fileName hmode
  | entry dir name call =>
    cases call with
    | openFile mode =>
      simp only [Keeps, EntryKeeps, Classical.not_imp, not_not] at hkeeps
      obtain ⟨hmode, rfl⟩ := hkeeps
      simp only [verify_dotDot, if_true] at hstep
      cases hstep
      exact not_isTree_openIn h dir _ hmode
    | createAsDirectory =>
      simp only [Keeps, EntryKeeps, not_not] at hkeeps
      subst hkeeps
      simp only [verify_dotDot, if_true] at hstep
      cases hstep
      exact not_isTree_doCreateAsDirectory h dir
    | rename newName =>
      simp only [Keeps, EntryKeeps, Classical.not_imp, not_not] at hkeeps
      obtain ⟨hfind, rfl⟩ := hkeeps
      simp only [hverify hfind, if_true] at hstep
      cases hstep
      exact not_isTree_doRename h hfind
    | erase => exact absurd trivial hkeeps
    | moveTo dest newName =>
      have hfind : (s.findNode dir.content name).isSome := by
        by_contra hnone
        refine hkeeps fun d n v _ hfind => absurd ?_ hnone
        rw [hfind]
        rfl
      simp only [hverify hfind, if_true] at hstep
      obtain ⟨r, hr, rfl⟩ := Option.map_eq_some_iff.mp hstep
      refine not_isTree_doMoveTo h ?_ hkeeps hr
      rintro d rfl
      exact hdirs d (List.mem_cons_of_mem dir List.mem_cons_self)

end InternalFileSystem

/-- **The nodes form a tree with good names**, exactly as long as no node is given a bad name and no directory is moved
below itself. -/
theorem isTree_iff_keeps (calls : List FileSystemCall) :
    (∀ t ∈ trace InternalFileSystem.step InternalFileSystem.new calls, t.post.IsTree) ↔
      ∀ t ∈ trace InternalFileSystem.step InternalFileSystem.new calls, t.pre.Keeps t.act :=
  forall_post_iff (I := InternalFileSystem.Sound) (C := InternalFileSystem.Keeps) (fun h => h.isTree)
    InternalFileSystem.sound_step InternalFileSystem.not_isTree_step InternalFileSystem.sound_new calls

/-- Create directory "a" and move it into itself; its node is not reachable any more. -/
theorem moved_below_itself :
    ∃ s, final InternalFileSystem.step InternalFileSystem.new
        [.createDirectory (lit "a"), .entry ⟨lit "/", 0⟩ (lit "a") (.moveTo (some ⟨lit "/a", 1⟩) (lit "b"))] = some s ∧
      s.lists 0 = [] ∧ s.lists 1 = [1] ∧ s.nodes 1 = some ⟨lit "b", .directory 1⟩ ∧ ¬s.IsTree := by
  refine ⟨_, rfl, rfl, rfl, rfl, ?_⟩
  intro htree
  refine htree.acyclic (.list 1) (.tail (.single (b := .node 1) ?_) ?_)
  · exact List.mem_singleton_self 1
  · exact ⟨lit "b", rfl⟩

end Afl.Io
