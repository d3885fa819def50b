import Afl.Io.FileSystem.InternalFileSystem
import Afl.Lib.Forest
import Afl.Lib.Run
import Mathlib.Data.List.Nodup

/-!
# The tree of an internal file system

Lists of nodes and nodes are the vertices of a graph: a list has edges to its nodes, a directory node has an edge to
its list. As long as no directory is moved below itself, the graph is a forest. Its roots are the root directory and
the directories that were erased, which can still be used by whoever has them open.
-/

namespace Afl.Io

open Relation

inductive Vertex
  | list (l : Nat)
  | node (n : Nat)

namespace InternalFileSystem

/-- From a directory's list to the nodes in it, and from a directory node to its list. -/
def Edge (s : InternalFileSystem) : Vertex → Vertex → Prop
  | .list l, .node n => n ∈ s.lists l
  | .node n, .list l => ∃ name, s.nodes n = some ⟨name, .directory l⟩
  | _, _ => False

/-- The root directory and the erased directories. -/
def roots (s : InternalFileSystem) : Set Vertex := {v | v = .list s.root ∨ ∃ l ∈ s.erased, v = .list l}

def vertices (s : InternalFileSystem) : Set Vertex
  | .list l => l ∈ s.directories
  | .node n => (s.nodes n).isSome

@[simp] theorem list_mem_vertices (s : InternalFileSystem) (l : Nat) : .list l ∈ s.vertices ↔ l ∈ s.directories := Iff.rfl

@[simp] theorem node_mem_vertices (s : InternalFileSystem) (n : Nat) : .node n ∈ s.vertices ↔ (s.nodes n).isSome = true :=
  Iff.rfl

/-- Names that are allowed: one component of a path name that is not special. -/
structure GoodName (name : Bytes) : Prop where
  nonempty : name ≠ []
  noSlash : slash ∉ name
  notDot : name ≠ lit "."
  notDotDot : name ≠ lit ".."

theorem goodName_iff {name : Bytes} : GoodName name ↔ verifyFileNameComponent name = true ∧ name ≠ lit ".." := by
  have hverify : verifyFileNameComponent name = true ↔ name ≠ [] ∧ slash ∉ name ∧ name ≠ lit "." := by
    simp [verifyFileNameComponent, and_assoc]
  rw [hverify]
  constructor
  · rintro ⟨h1, h2, h3, h4⟩
    exact ⟨⟨h1, h2, h3⟩, h4⟩
  · rintro ⟨⟨h1, h2, h3⟩, h4⟩
    exact ⟨h1, h2, h3, h4⟩

/-- The node is in an erased directory, or below one. -/
def IsErased (s : InternalFileSystem) (n : Nat) : Prop := ∃ l ∈ s.erased, ReflTransGen s.Edge (.list l) (.node n)

/-- A finite tree with good names. -/
structure IsTree (s : InternalFileSystem) : Prop where
  good : ∀ {n v}, s.nodes n = some v → GoodName v.name
  nodup : ∀ l, (s.lists l).Nodup
  unique : ∀ {l n m v w}, n ∈ s.lists l → m ∈ s.lists l → s.nodes n = some v → s.nodes m = some w →
    v.name = w.name → n = m
  exist : ∀ {l n}, n ∈ s.lists l → (s.nodes n).isSome
  finite : ∀ {n}, (s.nodes n).isSome → n < s.next
  parent : ∀ {a b c}, s.Edge a c → s.Edge b c → a = b
  acyclic : ∀ a, ¬TransGen s.Edge a a
  reachable : ∀ {n}, (s.nodes n).isSome → ¬s.IsErased n → ReflTransGen s.Edge (.list s.root) (.node n)

/-! ### Links -/

/-- What holds of nodes and lists whatever names and directories are used: every node is in one place, and has a name
of its own there. -/
structure Linked (s : InternalFileSystem) : Prop where
  nodup : ∀ l, (s.lists l).Nodup
  owner : ∀ {n l l'}, n ∈ s.lists l → n ∈ s.lists l' → l = l'
  exist : ∀ {n l}, n ∈ s.lists l → (s.nodes n).isSome
  listed : ∀ {n l}, n ∈ s.lists l → l ∈ s.directories
  content : ∀ {n name l}, s.nodes n = some ⟨name, .directory l⟩ → l ∈ s.directories
  root : s.root ∈ s.directories
  fresh : ∀ {n}, (s.nodes n).isSome → n < s.next
  allocated : ∀ {l}, l ∈ s.directories → l < s.next
  unique : ∀ {l n m v w}, n ∈ s.lists l → m ∈ s.lists l → s.nodes n = some v → s.nodes m = some w →
    v.name = w.name → n = m

/-- No node of the list has the name. -/
def Free (s : InternalFileSystem) (l : Nat) (name : Bytes) : Prop :=
  ∀ n ∈ s.lists l, ∀ v, s.nodes n = some v → v.name ≠ name

variable {s : InternalFileSystem} {l n : Nat} {name : Bytes} {v : FileNode}

theorem named_eq_some {m : Nat} : s.named name m = some (n, v) ↔ m = n ∧ s.nodes n = some v ∧ v.name = name := by
  rw [named, Option.bind_eq_some_iff]
  constructor
  · rintro ⟨w, hw, hsome⟩
    split_ifs at hsome with hname
    cases hsome
    exact ⟨rfl, hw, hname⟩
  · rintro ⟨rfl, hv, hname⟩
    exact ⟨v, hv, if_pos hname⟩

theorem findNode_some (h : s.findNode l name = some (n, v)) : n ∈ s.lists l ∧ s.nodes n = some v ∧ v.name = name := by
  obtain ⟨m, hm, hnamed⟩ := List.exists_of_findSome?_eq_some h
  obtain ⟨rfl, hv⟩ := named_eq_some.mp hnamed
  exact ⟨hm, hv⟩

theorem findNode_none (h : s.findNode l name = none) : s.Free l name := by
  intro n hn v hv hname
  have hnamed := List.findSome?_eq_none_iff.mp h n hn
  rw [named_eq_some.mpr ⟨rfl, hv, hname⟩] at hnamed
  cases hnamed

theorem Linked.nodes_next (h : Linked s) : s.nodes s.next = none := by
  by_contra hsome
  exact absurd (h.fresh (Option.isSome_iff_ne_none.mpr hsome)) (Nat.lt_irrefl _)

theorem Linked.lists_next (h : Linked s) : s.lists s.next = [] := by
  by_contra hne
  obtain ⟨n, hn⟩ := List.exists_mem_of_ne_nil _ hne
  exact absurd (h.allocated (h.listed hn)) (Nat.lt_irrefl _)

theorem Linked.next_not_mem (h : Linked s) (l : Nat) : s.next ∉ s.lists l := fun hmem =>
  absurd (h.fresh (h.exist hmem)) (Nat.lt_irrefl _)

/-! ### Lists -/

section

variable {lists : Nat → List Nat} {l' m : Nat}

theorem mem_pushBack : m ∈ pushBack lists l n l' ↔ m ∈ lists l' ∨ l' = l ∧ m = n := by
  rw [pushBack, Function.update_apply]
  split_ifs with hl
  · rw [hl, List.mem_append, List.mem_singleton]
    simp
  · simp [hl]

theorem nodup_pushBack (h : ∀ l, (lists l).Nodup) (hn : n ∉ lists l) (l' : Nat) : (pushBack lists l n l').Nodup := by
  rw [pushBack, Function.update_apply]
  split_ifs
  · exact List.nodup_append.mpr ⟨h l, List.nodup_singleton n, fun a ha b hb heq => hn (by
      rw [List.mem_singleton] at hb
      exact hb ▸ heq ▸ ha)⟩
  · exact h l'

theorem mem_extract (h : (lists l).Nodup) : m ∈ extract lists l n l' ↔ m ∈ lists l' ∧ ¬(l' = l ∧ m = n) := by
  rw [extract, Function.update_apply]
  split_ifs with hl
  · rw [hl, List.Nodup.mem_erase_iff h]
    simp [and_comm]
  · simp [hl]

theorem nodup_extract (h : ∀ l, (lists l).Nodup) (l' : Nat) : (extract lists l n l').Nodup := by
  rw [extract, Function.update_apply]
  split_ifs
  · exact (h l).erase n
  · exact h l'

end

theorem Linked.mem_extract (h : Linked s) (hn : n ∈ s.lists l) {l' m : Nat} :
    m ∈ extract s.lists l n l' ↔ m ∈ s.lists l' ∧ m ≠ n := by
  rw [InternalFileSystem.mem_extract (h.nodup l)]
  refine and_congr_right fun hm => not_congr ⟨fun hsame => hsame.2, ?_⟩
  rintro rfl
  exact ⟨h.owner hm hn, rfl⟩

/-! ### Putting a node into a list -/

/-- The directories refer to the same lists as before. -/
def SameContents (s s' : InternalFileSystem) : Prop :=
  ∀ m l, (∃ name, s'.nodes m = some ⟨name, .directory l⟩) ↔ ∃ name, s.nodes m = some ⟨name, .directory l⟩

/-- The node `n`, new or not, is in the list `l` and nowhere else now, as the node `v` with a name that nothing else in
the list has. Nothing else has changed. -/
structure Put (s s' : InternalFileSystem) (n l : Nat) (v : FileNode) : Prop where
  nodes : ∀ m, s'.nodes m = if m = n then some v else s.nodes m
  lists : ∀ m l', m ∈ s'.lists l' ↔ m ∈ s.lists l' ∧ m ≠ n ∨ l' = l ∧ m = n
  nodup : ∀ l, (s'.lists l).Nodup
  free : ∀ m ∈ s.lists l, m ≠ n → ∀ w, s.nodes m = some w → w.name ≠ v.name
  contents : SameContents s s'
  directory : l ∈ s.directories
  directories : s'.directories = s.directories
  next : s.next ≤ s'.next
  fresh : n < s'.next
  root : s'.root = s.root
  erased : s'.erased = s.erased

variable {s' : InternalFileSystem}

theorem Put.nodes_of_ne (h : Put s s' n l v) {m : Nat} (hm : m ≠ n) : s'.nodes m = s.nodes m := by
  rw [h.nodes, if_neg hm]

theorem Put.nodes_self (h : Put s s' n l v) : s'.nodes n = some v := by
  rw [h.nodes, if_pos rfl]

theorem Put.mem_of_ne (h : Put s s' n l v) {m l' : Nat} (hm : m ≠ n) (hmem : m ∈ s'.lists l') : m ∈ s.lists l' := by
  rcases (h.lists m l').mp hmem with ⟨hold, -⟩ | ⟨-, heq⟩
  · exact hold
  · exact absurd heq hm

theorem Put.list_of_mem (h : Put s s' n l v) {l' : Nat} (hmem : n ∈ s'.lists l') : l' = l := by
  rcases (h.lists n l').mp hmem with ⟨-, hne⟩ | ⟨heq, -⟩
  · exact absurd rfl hne
  · exact heq

theorem Linked.put (h : Linked s) (hput : Put s s' n l v) : Linked s' := by
  have hname : ∀ {m l' w}, m ≠ n → m ∈ s'.lists l' → n ∈ s'.lists l' → s'.nodes m = some w → w.name ≠ v.name := by
    intro m l' w hm hmem hn hw
    rw [hput.nodes_of_ne hm] at hw
    have hlist := hput.mem_of_ne hm hmem
    rw [hput.list_of_mem hn] at hlist
    exact hput.free m hlist hm w hw
  refine ⟨hput.nodup, ?_, ?_, ?_, ?_, ?_, ?_, ?_, ?_⟩
  · intro m l₁ l₂ h₁ h₂
    by_cases hm : m = n
    · rw [hm] at h₁ h₂
      rw [hput.list_of_mem h₁, hput.list_of_mem h₂]
    · exact h.owner (hput.mem_of_ne hm h₁) (hput.mem_of_ne hm h₂)
  · intro m l' hmem
    by_cases hm : m = n
    · rw [hm, hput.nodes_self]
      rfl
    · rw [hput.nodes_of_ne hm]
      exact h.exist (hput.mem_of_ne hm hmem)
  · intro m l' hmem
    rw [hput.directories]
    by_cases hm : m = n
    · rw [hm] at hmem
      rw [hput.list_of_mem hmem]
      exact hput.directory
    · exact h.listed (hput.mem_of_ne hm hmem)
  · intro m name l' hm
    obtain ⟨name', hold⟩ := (hput.contents m l').mp ⟨name, hm⟩
    rw [hput.directories]
    exact h.content hold
  · rw [hput.root, hput.directories]
    exact h.root
  · intro m hsome
    by_cases hm : m = n
    · rw [hm]
      exact hput.fresh
    · rw [hput.nodes_of_ne hm] at hsome
      exact lt_of_lt_of_le (h.fresh hsome) hput.next
  · intro l' hl'
    rw [hput.directories] at hl'
    exact lt_of_lt_of_le (h.allocated hl') hput.next
  · intro l' m₁ m₂ w₁ w₂ h₁ h₂ hw₁ hw₂ hsame
    by_cases e₁ : m₁ = n
    · by_cases e₂ : m₂ = n
      · rw [e₁, e₂]
      · rw [e₁] at h₁ hw₁
        rw [hput.nodes_self] at hw₁
        cases hw₁
        exact absurd hsame.symm (hname e₂ h₂ h₁ hw₂)
    · by_cases e₂ : m₂ = n
      · rw [e₂] at h₂ hw₂
        rw [hput.nodes_self] at hw₂
        cases hw₂
        exact absurd hsame (hname e₁ h₁ h₂ hw₁)
      · rw [hput.nodes_of_ne e₁] at hw₁
        rw [hput.nodes_of_ne e₂] at hw₂
        exact h.unique (hput.mem_of_ne e₁ h₁) (hput.mem_of_ne e₂ h₂) hw₁ hw₂ hsame

/-! ### The changes -/

theorem put_newFile (h : Linked s) (hl : l ∈ s.directories) (hfree : s.Free l name) :
    Put s (s.newFile l name) s.next l ⟨name, .file s.next⟩ where
  nodes := Function.update_apply s.nodes s.next _
  lists m l' := by
    refine mem_pushBack.trans (or_congr_left ⟨fun hm => ⟨hm, ?_⟩, And.left⟩)
    rintro rfl
    exact h.next_not_mem l' hm
  nodup := nodup_pushBack h.nodup (h.next_not_mem l)
  free m hm _ w hw := hfree m hm w hw
  contents m l' := by
    simp only [newFile, Function.update_apply]
    split_ifs with hm
    · rw [hm, h.nodes_next]
      simp
    · exact Iff.rfl
  directory := hl
  directories := rfl
  next := Nat.le_succ _
  fresh := Nat.lt_succ_self _
  root := rfl
  erased := rfl

theorem mem_iff_of_mem (h : Linked s) (hn : n ∈ s.lists l) (m l' : Nat) :
    m ∈ s.lists l' ↔ m ∈ s.lists l' ∧ m ≠ n ∨ l' = l ∧ m = n := by
  constructor
  · intro hm
    by_cases hmn : m = n
    · rw [hmn] at hm
      exact .inr ⟨h.owner hm hn, hmn⟩
    · exact .inl ⟨hm, hmn⟩
  · rintro (⟨hm, -⟩ | ⟨rfl, rfl⟩)
    · exact hm
    · exact hn

theorem setName_nodes {newName : Bytes} (hv : s.nodes n = some v) (m : Nat) :
    (s.setName n newName).nodes m = if m = n then some { v with name := newName } else s.nodes m := by
  simp only [setName, Function.update_apply, hv, Option.map_some]

theorem sameContents_setName (s : InternalFileSystem) (n : Nat) (newName : Bytes) :
    SameContents s (s.setName n newName) := by
  intro m l
  simp only [setName, Function.update_apply]
  split_ifs with hm
  · rw [hm]
    rcases s.nodes n with _ | ⟨name, content⟩
    · simp
    · simp
  · exact Iff.rfl

theorem put_setName {newName : Bytes} (h : Linked s) (hn : n ∈ s.lists l) (hv : s.nodes n = some v)
    (hfree : s.Free l newName) : Put s (s.setName n newName) n l { v with name := newName } where
  nodes := setName_nodes hv
  lists := mem_iff_of_mem (s := s) h hn
  nodup := h.nodup
  free m hm _ w hw := hfree m hm w hw
  contents := s.sameContents_setName n newName
  directory := h.listed hn
  directories := rfl
  next := Nat.le_refl _
  fresh := h.fresh (h.exist hn)
  root := rfl
  erased := rfl

theorem put_resetContent {stream : Nat} (h : Linked s) (hn : n ∈ s.lists l) (hv : s.nodes n = some ⟨name, .file stream⟩) :
    Put s (s.resetContent n) n l ⟨name, .file s.next⟩ where
  nodes m := by
    simp only [resetContent, Function.update_apply, hv, Option.map_some]
  lists := mem_iff_of_mem (s := s) h hn
  nodup := h.nodup
  free m hm hne w hw hsame := hne (h.unique hm hn hw hv hsame)
  contents m l' := by
    simp only [resetContent, Function.update_apply]
    split_ifs with hm
    · rw [hm, hv]
      simp
    · exact Iff.rfl
  directory := h.listed hn
  directories := rfl
  next := Nat.le_succ _
  fresh := Nat.lt_succ_of_lt (h.fresh (h.exist hn))
  root := rfl
  erased := rfl

theorem put_move {src dest : Nat} {newName : Bytes} (h : Linked s) (hn : n ∈ s.lists src) (hv : s.nodes n = some v)
    (hdest : dest ∈ s.directories) (hfree : s.Free dest newName) :
    Put s ((s.relink src dest n).setName n newName) n dest { v with name := newName } where
  nodes := setName_nodes (s := s.relink src dest n) hv
  lists _ _ := mem_pushBack.trans (or_congr_left (h.mem_extract hn))
  nodup := nodup_pushBack (nodup_extract h.nodup) fun hmem => ((h.mem_extract hn).mp hmem).2 rfl
  free m hm _ w hw := hfree m hm w hw
  contents := sameContents_setName _ n newName
  directory := hdest
  directories := rfl
  next := Nat.le_refl _
  fresh := h.fresh (h.exist hn)
  root := rfl
  erased := rfl

theorem newDirectory_nodes (s : InternalFileSystem) (l : Nat) (name : Bytes) (m : Nat) :
    (s.newDirectory l name).nodes m = if m = s.next then some ⟨name, .directory s.next⟩ else s.nodes m :=
  Function.update_apply s.nodes s.next _ m

theorem newDirectory_lists (h : Linked s) (l : Nat) (name : Bytes) :
    (s.newDirectory l name).lists = (s.newFile l name).lists := by
  have hempty : Function.update s.lists s.next [] = s.lists := by
    rw [← h.lists_next, Function.update_eq_self]
  rw [newDirectory, newFile, hempty]

theorem linked_newDirectory (h : Linked s) (hl : l ∈ s.directories) (hfree : s.Free l name) :
    Linked (s.newDirectory l name) := by
  have hput := put_newFile h hl hfree
  have hfile := h.put hput
  have hlists := newDirectory_lists h l name
  have hname : ∀ {m w}, (s.newDirectory l name).nodes m = some w →
      ∃ w', (s.newFile l name).nodes m = some w' ∧ w'.name = w.name := by
    intro m w hw
    rw [newDirectory_nodes] at hw
    rw [hput.nodes]
    split_ifs at hw ⊢
    · cases hw
      exact ⟨_, rfl, rfl⟩
    · exact ⟨w, hw, rfl⟩
  refine ⟨?_, ?_, ?_, ?_, ?_, List.mem_cons_of_mem _ h.root, ?_, ?_, ?_⟩
  · rw [hlists]
    exact hfile.nodup
  · rw [hlists]
    exact hfile.owner
  · intro m l' hm
    rw [hlists] at hm
    rw [newDirectory_nodes]
    split_ifs with heq
    · rfl
    · have hsome := hfile.exist hm
      rwa [hput.nodes_of_ne heq] at hsome
  · intro m l' hm
    rw [hlists] at hm
    exact List.mem_cons_of_mem _ (hfile.listed hm)
  · intro m name' l' hm
    rw [newDirectory_nodes] at hm
    split_ifs at hm
    · cases hm
      exact List.mem_cons_self
    · exact List.mem_cons_of_mem _ (h.content hm)
  · intro m hm
    rw [newDirectory_nodes] at hm
    split_ifs at hm with heq
    · rw [heq]
      exact Nat.lt_succ_self _
    · exact Nat.lt_succ_of_lt (h.fresh hm)
  · intro l' hl'
    rcases List.mem_cons.mp hl' with rfl | hl'
    · exact Nat.lt_succ_self _
    · exact Nat.lt_succ_of_lt (h.allocated hl')
  · intro l' m₁ m₂ w₁ w₂ h₁ h₂ hw₁ hw₂ hsame
    rw [hlists] at h₁ h₂
    obtain ⟨w₁', hw₁', hname₁⟩ := hname hw₁
    obtain ⟨w₂', hw₂', hname₂⟩ := hname hw₂
    exact hfile.unique h₁ h₂ hw₁' hw₂' (hname₁.trans (hsame.trans hname₂.symm))

theorem eraseNode_nodes (s : InternalFileSystem) (l n m : Nat) :
    (s.eraseNode l n).nodes m = if m = n then none else s.nodes m :=
  Function.update_apply s.nodes n _ m

theorem nodes_of_eraseNode {m : Nat} (h : (s.eraseNode l n).nodes m = some v) : m ≠ n ∧ s.nodes m = some v := by
  rw [eraseNode_nodes] at h
  split_ifs at h with hm
  exact ⟨hm, h⟩

theorem mem_eraseNode (h : Linked s) (hn : n ∈ s.lists l) {m l' : Nat} :
    m ∈ (s.eraseNode l n).lists l' ↔ m ∈ s.lists l' ∧ m ≠ n :=
  h.mem_extract hn

theorem linked_eraseNode (h : Linked s) (hn : n ∈ s.lists l) : Linked (s.eraseNode l n) := by
  have hmem : ∀ {m l'}, m ∈ (s.eraseNode l n).lists l' → m ∈ s.lists l' := fun hm => ((mem_eraseNode h hn).mp hm).1
  refine ⟨nodup_extract h.nodup, fun h₁ h₂ => h.owner (hmem h₁) (hmem h₂), ?_, fun hm => h.listed (hmem hm), ?_, h.root,
    ?_, h.allocated, ?_⟩
  · intro m l' hm
    obtain ⟨hold, hne⟩ := (mem_eraseNode h hn).mp hm
    rw [eraseNode_nodes, if_neg hne]
    exact h.exist hold
  · exact fun hm => h.content (nodes_of_eraseNode hm).2
  · intro m hm
    obtain ⟨w, hw⟩ := Option.isSome_iff_exists.mp hm
    exact h.fresh (Option.isSome_of_eq_some (nodes_of_eraseNode hw).2)
  · intro l' m₁ m₂ w₁ w₂ h₁ h₂ hw₁ hw₂ hsame
    exact h.unique (hmem h₁) (hmem h₂) (nodes_of_eraseNode hw₁).2 (nodes_of_eraseNode hw₂).2 hsame

theorem free_eraseNode (h : Linked s) (hfind : s.findNode l name = some (n, v)) : (s.eraseNode l n).Free l name := by
  obtain ⟨hn, hv, hname⟩ := findNode_some hfind
  intro m hm w hw hsame
  obtain ⟨hne, hw⟩ := nodes_of_eraseNode hw
  exact hne (h.unique ((mem_eraseNode h hn).mp hm).1 hn hw hv (hsame.trans hname.symm))

/-! ### The forest -/

/-- Lists and nodes form a forest. -/
def Forest (s : InternalFileSystem) : Prop := IsForest s.roots s.vertices s.Edge

theorem node_not_root (s : InternalFileSystem) (n : Nat) : Vertex.node n ∉ s.roots := by
  rintro (h | ⟨l, -, h⟩)
  · cases h
  · cases h

theorem Put.edge (h : Put s s' n l v) (a b : Vertex) :
    s'.Edge a b ↔ s.Edge a b ∧ b ≠ .node n ∨ a = .list l ∧ b = .node n := by
  cases a with
  | list l' =>
    cases b with
    | list _ => simp [Edge]
    | node m => simpa [Edge] using h.lists m l'
  | node m =>
    cases b with
    | list l' => simpa [Edge] using h.contents m l'
    | node _ => simp [Edge]

theorem Forest.put (hforest : Forest s) (h : Put s s' n l v) (hbelow : ¬ReflTransGen s.Edge (.node n) (.list l)) :
    Forest s' := by
  have hroots : s'.roots = s.roots := by
    rw [roots, roots, h.root, h.erased]
  have hvertices : s'.vertices = insert (.node n) s.vertices := by
    ext x
    rw [Set.mem_insert_iff]
    cases x with
    | list l' =>
      rw [list_mem_vertices, list_mem_vertices, h.directories]
      simp
    | node m =>
      rw [node_mem_vertices, node_mem_vertices, h.nodes]
      split_ifs with hm
      · simp [hm]
      · simp [hm]
  rw [Forest, hroots, hvertices]
  exact hforest.reparent h.edge h.directory (s.node_not_root n) hbelow

theorem not_below (hn : ∀ name l, s.nodes n ≠ some ⟨name, .directory l⟩) (l : Nat) :
    ¬ReflTransGen s.Edge (.node n) (.list l) := by
  intro hpath
  rcases ReflTransGen.cases_head hpath with heq | ⟨b, hb, -⟩
  · cases heq
  · cases b with
    | node m => exact hb
    | list l' =>
      obtain ⟨name, hdirectory⟩ := hb
      exact hn name l' hdirectory

theorem newDirectory_edge_iff (h : Linked s) (hl : l ∈ s.directories) (hfree : s.Free l name) (a b : Vertex) :
    (s.newDirectory l name).Edge a b ↔
      (s.newFile l name).Edge a b ∧ b ≠ .list s.next ∨ a = .node s.next ∧ b = .list s.next := by
  have hput := put_newFile h hl hfree
  have hnew : s.next ∉ s.directories := fun hmem => absurd (h.allocated hmem) (Nat.lt_irrefl _)
  cases a with
  | list l' =>
    cases b with
    | list _ => simp [Edge]
    | node m => simp [Edge, newDirectory_lists h]
  | node m =>
    cases b with
    | list l' =>
      have hold : ∀ name', s.nodes m ≠ some ⟨name', .directory s.next⟩ := fun name' hm => hnew (h.content hm)
      simp only [Edge, newDirectory_nodes, hput.nodes]
      by_cases hm : m = s.next
      · simp [hm, eq_comm]
      · by_cases hl' : l' = s.next
        · rw [hl']
          simpa [hm] using hold
        · simp [hm, hl']
    | node _ => simp [Edge]

theorem newDirectory_vertices (h : Linked s) (hl : l ∈ s.directories) (hfree : s.Free l name) :
    (s.newDirectory l name).vertices = insert (.list s.next) (s.newFile l name).vertices := by
  have hput := put_newFile h hl hfree
  ext x
  rw [Set.mem_insert_iff]
  cases x with
  | list l' =>
    rw [list_mem_vertices, list_mem_vertices]
    simp [newDirectory, newFile]
  | node m =>
    rw [node_mem_vertices, node_mem_vertices, newDirectory_nodes, hput.nodes]
    split_ifs with hm
    · simp
    · simp

theorem forest_newDirectory (h : Linked s) (hforest : Forest s) (hl : l ∈ s.directories) (hfree : s.Free l name) :
    Forest (s.newDirectory l name) := by
  have hput := put_newFile h hl hfree
  have hnew : s.next ∉ s.directories := fun hmem => absurd (h.allocated hmem) (Nat.lt_irrefl _)
  have hfile : Forest (s.newFile l name) := by
    refine hforest.put hput (not_below (fun name' l' hsome => ?_) l)
    rw [h.nodes_next] at hsome
    cases hsome
  have hroot : Vertex.list s.next ∉ s.roots := fun hmem => hnew (hforest.rooted hmem)
  have hnothing : ¬ReflTransGen (s.newFile l name).Edge (.list s.next) (.node s.next) := by
    intro hpath
    rcases ReflTransGen.cases_head hpath with heq | ⟨b, hb, -⟩
    · cases heq
    · exact hnew (hfile.closed hb).1
  have hnode : Vertex.node s.next ∈ (s.newFile l name).vertices := by
    rw [node_mem_vertices, hput.nodes_self]
    rfl
  rw [Forest, newDirectory_vertices h hl hfree]
  exact hfile.reparent (newDirectory_edge_iff h hl hfree) hnode hroot hnothing

theorem forest_eraseNode (h : Linked s) (hforest : Forest s) (hn : n ∈ s.lists l) : Forest (s.eraseNode l n) := by
  have hedge : ∀ a b, (s.eraseNode l n).Edge a b ↔ s.Edge a b ∧ a ≠ .node n ∧ b ≠ .node n := by
    intro a b
    cases a with
    | list l' =>
      cases b with
      | list _ => simp [Edge]
      | node m => simpa [Edge] using mem_eraseNode h hn
    | node m =>
      cases b with
      | list l' =>
        simp only [Edge, eraseNode_nodes]
        by_cases hm : m = n
        · simp [hm]
        · simp [hm]
      | node _ => simp [Edge]
  have hroots : ∀ r, r ∈ (s.eraseNode l n).roots ↔ r ∈ s.roots ∨ s.Edge (.node n) r := by
    intro r
    cases r with
    | node m => simp [roots, Edge]
    | list l' =>
      rcases hv : s.nodes n with _ | ⟨name, _ | content⟩
      · simp [roots, Edge, eraseNode, hv]
      · simp [roots, Edge, eraseNode, hv]
      · have herased : (s.eraseNode l n).erased = content :: s.erased := by rw [eraseNode, hv]
        have hroot : (s.eraseNode l n).root = s.root := rfl
        simp [roots, Edge, herased, hroot, hv]
        tauto
  have hvertices : (s.eraseNode l n).vertices = {x ∈ s.vertices | x ≠ .node n} := by
    ext x
    cases x with
    | list l' => simp [eraseNode]
    | node m =>
      simp only [node_mem_vertices, eraseNode_nodes, Set.mem_ofPred_eq]
      by_cases hm : m = n
      · simp [hm]
      · simp [hm]
  rw [Forest, hvertices]
  exact hforest.delete hedge (s.node_not_root n) hroots

/-! ### Sound trees -/

/-- Everything is linked, in a forest, with good names. -/
structure Sound (s : InternalFileSystem) : Prop extends Linked s where
  forest : Forest s
  good : ∀ {n v}, s.nodes n = some v → GoodName v.name

theorem Sound.isTree (h : Sound s) : IsTree s := by
  refine ⟨h.good, h.nodup, h.unique, h.exist, h.fresh, h.forest.unique, h.forest.acyclic, ?_⟩
  intro n hn herased
  obtain ⟨r, hr, hpath⟩ := h.forest.below (v := .node n) hn
  rcases hr with rfl | ⟨l, hl, rfl⟩
  · exact hpath
  · exact absurd ⟨l, hl, hpath⟩ herased

theorem linked_new : Linked new := by
  refine ⟨fun l => List.nodup_nil, ?_, ?_, ?_, ?_, List.mem_singleton_self 0, ?_, ?_, ?_⟩
  · intro n l l' hn
    cases hn
  · intro n l hn
    cases hn
  · intro n l hn
    cases hn
  · intro n name l hn
    cases hn
  · intro n hn
    cases hn
  · intro l hl
    rw [List.mem_singleton.mp hl]
    exact Nat.one_pos
  · intro l n m v w hn
    cases hn

theorem sound_new : Sound new := by
  have hedge : ∀ a b, ¬new.Edge a b := by
    intro a b hab
    cases a <;> cases b <;> simp [Edge, new] at hab
  refine ⟨linked_new, ⟨fun hab => absurd hab (hedge _ _), fun hac => absurd hac (hedge _ _), fun _ => hedge _ _, ?_, ?_⟩, ?_⟩
  · rintro r (rfl | ⟨l, hl, -⟩)
    · exact List.mem_singleton_self 0
    · cases hl
  · intro x hx
    cases x with
    | list l =>
      have hl : l = 0 := List.mem_singleton.mp hx
      exact ⟨.list l, .inl (by rw [hl]; rfl), ReflTransGen.refl⟩
    | node n => cases hx
  · intro n v hv
    cases hv

end InternalFileSystem

end Afl.Io
