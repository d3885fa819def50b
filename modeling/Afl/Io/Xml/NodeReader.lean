import Afl.Io.Xml.Node
import Afl.Io.Xml.Reader

/-!
# The reader for XML nodes

`afl/io/xml/nodereader.cpp`: the tokens of nodes that are already there. A worker goes through a node, with another
worker for the child it is at. `Worker.items` are the tokens that a worker has yet to give; every call takes the first
of them.
-/

namespace Afl.Io.Xml

namespace NodeReader

/-- The properties of the last token. -/
structure Data where
  tag : Bytes
  name : Bytes
  value : Bytes

inductive TagState
  | opening
  | attributes
  | content
  | close
  | done
  deriving DecidableEq

inductive PIState
  | opening
  | attributes
  | done
  deriving DecidableEq

/-- `TagWorker`, `PIWorker` and `TextWorker`, each with the node it goes through. -/
inductive Worker
  | tag (name : Bytes) (attributes : Attributes) (children : List Node) (state : TagState) (index : Nat)
    (child : Option Worker)
  | pi (name : Bytes) (attributes : Attributes) (state : PIState) (index : Nat)
  | text (text : Bytes) (did : Bool)

/-- `Visitor`: the worker for a node. -/
def Worker.new : Node → Worker
  | .pi name attributes => .pi name attributes .opening 0
  | .tag name attributes children => .tag name attributes children .opening 0 none
  | .text content => .text content false

mutual

def nodeWeight : Node → Nat
  | .tag _ _ children => nodesWeight children + 4
  | _ => 0

def nodesWeight : List Node → Nat
  | [] => 0
  | node :: nodes => nodeWeight node + nodesWeight nodes + 2

end

def Worker.weight : Worker → Nat
  | .tag _ _ children state index child =>
    match state with
    | .opening | .attributes => nodesWeight children + childWeight child + 4
    | .content => nodesWeight (children.drop index) + childWeight child + 2
    | .close | .done => 0
  | _ => 0
where
  childWeight : Option Worker → Nat
    | none => 0
    | some child => child.weight + 1

variable (mode : WhitespaceMode)

def readText (content : Bytes) (did : Bool) (d : Data) : Token × Data × Worker :=
  if did = false then
    let d := { d with value := content }
    if mode ≠ .allWS then
      if d.value.all Reader.isBlank ∧ mode = .trimWS then (.eof, d, .text content true)
      else (.text, { d with value := lit " " }, .text content true)
    else (.text, d, .text content true)
  else (.eof, d, .text content did)

def readPI (name : Bytes) (attributes : Attributes) (state : PIState) (index : Nat) (d : Data) : Token × Data × Worker :=
  match state with
  | .opening => (.piStart, { d with tag := name }, .pi name attributes .attributes 0)
  | .attributes =>
    match attributes[index]? with
    | some (n, v) => (.piAttribute, ⟨name, n, v⟩, .pi name attributes .attributes (index + 1))
    | none => (.eof, d, .pi name attributes .done 0)
  | .done => (.eof, d, .pi name attributes .done index)

theorem nodesWeight_drop {children : List Node} {index : Nat} {node : Node} (h : children[index]? = some node) :
    nodesWeight (children.drop index) = nodeWeight node + nodesWeight (children.drop (index + 1)) + 2 := by
  obtain ⟨hlt, rfl⟩ := List.getElem?_eq_some_iff.mp h
  rw [List.drop_eq_getElem_cons hlt, nodesWeight]

theorem weight_new (node : Node) : (Worker.new node).weight = nodeWeight node := by
  cases node <;> simp [Worker.new, Worker.weight, Worker.weight.childWeight, nodeWeight]

/-- `readNext` of a worker. A tag whose attributes or whose children are over goes on in its next state. -/
def Worker.readNext : Worker → Data → Token × Data × Worker
  | .text content did, d => readText mode content did d
  | .pi name attributes state index, d => readPI name attributes state index d
  | .tag name attributes children .opening _ child, d =>
    (.tagStart, { d with tag := name }, .tag name attributes children .attributes 0 child)
  | .tag name attributes children .attributes index child, d =>
    match attributes[index]? with
    | some (n, v) => (.tagAttribute, ⟨name, n, v⟩, .tag name attributes children .attributes (index + 1) child)
    | none => Worker.readNext (.tag name attributes children .content 0 child) d
  | .tag name attributes children .content index (some child), d =>
    match Worker.readNext child d with
    | (.eof, d, _) => Worker.readNext (.tag name attributes children .content index none) d
    | (t, d, child) => (t, d, .tag name attributes children .content index (some child))
  | .tag name attributes children .content index none, d =>
    match _h : children[index]? with
    | some node => Worker.readNext (.tag name attributes children .content (index + 1) (some (.new node))) d
    | none => Worker.readNext (.tag name attributes children .close index none) d
  | .tag name attributes children .close index child, d =>
    (.tagEnd, { d with tag := name }, .tag name attributes children .done index child)
  | .tag name attributes children .done index child, d =>
    (.eof, d, .tag name attributes children .done index child)
termination_by w => w.weight
decreasing_by
  all_goals simp only [Worker.weight, Worker.weight.childWeight, List.drop_zero]
  · omega
  · omega
  · omega
  · rw [nodesWeight_drop _h, weight_new]
    omega
  · omega

end NodeReader

/-- The nodes that have not been begun, the worker for the current one, and the properties of the last token. -/
structure NodeReader where
  nodes : List Node
  worker : Option NodeReader.Worker
  whitespaceMode : WhitespaceMode
  data : NodeReader.Data

namespace NodeReader

def new : NodeReader := ⟨[], none, .allWS, ⟨[], [], []⟩⟩

def addNode (node : Node) (s : NodeReader) : NodeReader := { s with nodes := s.nodes ++ [node] }

def setWhitespaceMode (mode : WhitespaceMode) (s : NodeReader) : NodeReader := { s with whitespaceMode := mode }

def readNext (s : NodeReader) : Token × NodeReader :=
  match _hworker : s.worker with
  | some worker =>
    match worker.readNext s.whitespaceMode s.data with
    | (.eof, d, _) => readNext { s with worker := none, data := d }
    | (t, d, worker) => (t, { s with worker := some worker, data := d })
  | none =>
    match _hnodes : s.nodes with
    | [] => (.eof, s)
    | node :: nodes => readNext { s with nodes := nodes, worker := some (.new node) }
termination_by 2 * s.nodes.length + s.worker.isSome.toNat
decreasing_by
  · simp [_hworker]
  · simp [_hworker, _hnodes]
    omega

def toBaseReader : BaseReader NodeReader where
  readNext s := some s.readNext
  getTag s := s.data.tag
  getName s := s.data.name
  getValue s := s.data.value

def opened (nodes : List Node) (mode : WhitespaceMode) : NodeReader :=
  (nodes.foldl (fun s node => s.addNode node) new).setWhitespaceMode mode

/-! ### The tokens that are left -/

/-- How `NodeReader` reports contents. -/
def rendering (mode : WhitespaceMode) : Rendering where
  text text :=
    if mode = .allWS then some text
    else if text.all Reader.isBlank ∧ mode = .trimWS then none
    else some (lit " ")
  value := id
  field := id

def Worker.items (mode : WhitespaceMode) : Worker → List Item
  | .text content did => if did then [] else (Node.text content).items (rendering mode)
  | .pi name attributes state index =>
    match state with
    | .opening => .piStart name :: attributes.map fun a => .piAttribute name a.1 a.2
    | .attributes => (attributes.drop index).map fun a => .piAttribute name a.1 a.2
    | .done => []
  | .tag name attributes children state index child =>
    match state with
    | .opening =>
      .tagStart name :: (attributes.map (fun a => .tagAttribute name a.1 a.2) ++
        (childItems child ++ (itemsAll (rendering mode) children ++ [.tagEnd name])))
    | .attributes =>
      (attributes.drop index).map (fun a => .tagAttribute name a.1 a.2) ++
        (childItems child ++ (itemsAll (rendering mode) children ++ [.tagEnd name]))
    | .content => childItems child ++ (itemsAll (rendering mode) (children.drop index) ++ [.tagEnd name])
    | .close => [.tagEnd name]
    | .done => []
where
  childItems : Option Worker → List Item
    | none => []
    | some child => child.items mode

theorem items_new (mode : WhitespaceMode) (node : Node) : (Worker.new node).items mode = node.items (rendering mode) := by
  cases node with
  | text content => rfl
  | pi name attributes =>
    rw [Node.items]
    rfl
  | tag name attributes children =>
    rw [Node.items, List.cons_append, List.cons_append, List.append_assoc]
    rfl

/-- A call takes the first of the tokens, or there are none. -/
def Takes (mode : WhitespaceMode) (items : List Item) (r : Token × Data × Worker) : Prop :=
  (r.1 = .eof ∧ items = []) ∨
    (r.1 ≠ .eof ∧ items = .make r.1 r.2.1.tag r.2.1.name r.2.1.value :: r.2.2.items mode)

variable (mode : WhitespaceMode)

theorem takes_readText (content : Bytes) (did : Bool) (d : Data) :
    Takes mode ((Worker.text content did).items mode) (readText mode content did d) := by
  unfold readText
  cases did with
  | true => exact .inl ⟨rfl, rfl⟩
  | false =>
    rw [if_pos rfl]
    simp only [Worker.items, Node.items, rendering, Bool.false_eq_true, if_false]
    by_cases hmode : mode = .allWS
    · rw [if_pos hmode, if_neg (not_not_intro hmode)]
      exact .inr ⟨nofun, rfl⟩
    · rw [if_pos hmode, if_neg hmode]
      split_ifs
      · exact .inl ⟨rfl, rfl⟩
      · exact .inr ⟨nofun, rfl⟩

theorem takes_readPI (name : Bytes) (attributes : Attributes) (state : PIState) (index : Nat) (d : Data) :
    Takes mode ((Worker.pi name attributes state index).items mode) (readPI name attributes state index d) := by
  unfold readPI
  cases state with
  | opening => exact .inr ⟨nofun, rfl⟩
  | done => exact .inl ⟨rfl, rfl⟩
  | attributes =>
    cases h : attributes[index]? with
    | none =>
      refine .inl ⟨rfl, ?_⟩
      rw [Worker.items, List.drop_eq_nil_of_le (List.getElem?_eq_none_iff.mp h)]
      rfl
    | some a =>
      obtain ⟨hlt, rfl⟩ := List.getElem?_eq_some_iff.mp h
      refine .inr ⟨nofun, ?_⟩
      rw [Worker.items, List.drop_eq_getElem_cons hlt]
      rfl

theorem takes_readNext (w : Worker) (d : Data) : Takes mode (w.items mode) (w.readNext mode d) := by
  fun_induction Worker.readNext mode w d with
  | case1 content did d => exact takes_readText mode content did d
  | case2 name attributes state index d => exact takes_readPI mode name attributes state index d
  | case3 name attributes children index child d => exact .inr ⟨nofun, rfl⟩
  | case4 name attributes children index child d n v h =>
    obtain ⟨hlt, hget⟩ := List.getElem?_eq_some_iff.mp h
    refine .inr ⟨nofun, ?_⟩
    rw [Worker.items, List.drop_eq_getElem_cons hlt, hget]
    rfl
  | case5 name attributes children index child d h ih =>
    rw [Worker.items, List.drop_eq_nil_of_le (List.getElem?_eq_none_iff.mp h)]
    rw [Worker.items] at ih
    exact ih
  | case6 name attributes children index child d d' child' hchild ihchild ih =>
    -- the child is done
    rw [hchild] at ihchild
    obtain ⟨-, hnil⟩ | ⟨hne, -⟩ := ihchild
    · rw [Worker.items, Worker.items.childItems, hnil]
      exact ih
    · exact absurd rfl hne
  | case7 name attributes children index child d t d' child' hne hchild ihchild =>
    rw [hchild] at ihchild
    obtain ⟨heof, -⟩ | ⟨-, hcons⟩ := ihchild
    · exact absurd heof hne
    · refine .inr ⟨hne, ?_⟩
      rw [Worker.items, Worker.items.childItems, hcons]
      rfl
  | case8 name attributes children index d node h ih =>
    obtain ⟨hlt, rfl⟩ := List.getElem?_eq_some_iff.mp h
    rw [Worker.items, List.drop_eq_getElem_cons hlt, itemsAll, ← items_new, List.append_assoc]
    exact ih
  | case9 name attributes children index d h ih =>
    rw [Worker.items, List.drop_eq_nil_of_le (List.getElem?_eq_none_iff.mp h)]
    exact ih
  | case10 name attributes children index child d => exact .inr ⟨nofun, rfl⟩
  | case11 name attributes children index child d => exact .inl ⟨rfl, rfl⟩

/-! ### The tokens of a reader -/

def pending (s : NodeReader) : List Item :=
  (match s.worker with
    | none => []
    | some worker => worker.items s.whitespaceMode) ++ itemsAll (rendering s.whitespaceMode) s.nodes

theorem pending_readNext (s : NodeReader) :
    (s.readNext.1 = .eof ∧ s.pending = []) ∨
      (s.readNext.1 ≠ .eof ∧
        s.pending = .make s.readNext.1 s.readNext.2.data.tag s.readNext.2.data.name s.readNext.2.data.value ::
          s.readNext.2.pending) := by
  fun_induction readNext s with
  | case1 s worker hworker d worker' hread ih =>
    have htakes := takes_readNext s.whitespaceMode worker s.data
    rw [hread] at htakes
    obtain ⟨-, hnil⟩ | ⟨hne, -⟩ := htakes
    · have hpending : s.pending = ({ s with worker := none, data := d } : NodeReader).pending := by
        rw [pending, hworker, pending]
        simp only [hnil]
      rw [hpending]
      exact ih
    · exact absurd rfl hne
  | case2 s worker hworker t d worker' hne hread =>
    have htakes := takes_readNext s.whitespaceMode worker s.data
    rw [hread] at htakes
    obtain ⟨heof, -⟩ | ⟨-, hcons⟩ := htakes
    · exact absurd heof hne
    · refine .inr ⟨hne, ?_⟩
      rw [pending, hworker, pending]
      simp only [hcons, List.cons_append]
  | case3 s hworker hnodes =>
    refine .inl ⟨rfl, ?_⟩
    rw [pending, hworker, hnodes]
    rfl
  | case4 s hworker node nodes hnodes ih =>
    have hpending : s.pending = ({ s with nodes := nodes, worker := some (.new node) } : NodeReader).pending := by
      rw [pending, hworker, hnodes, pending]
      simp only [items_new, itemsAll, List.nil_append]
    rw [hpending]
    exact ih

theorem next_eq (s : NodeReader) : toBaseReader.next s =
    some (.make s.readNext.1 s.readNext.2.data.tag s.readNext.2.data.name s.readNext.2.data.value, s.readNext.2) := rfl

theorem opened_pending (nodes : List Node) (mode : WhitespaceMode) :
    (opened nodes mode).pending = itemsAll (rendering mode) nodes := by
  have hadd : ∀ s : NodeReader,
      nodes.foldl (fun s node => s.addNode node) s = { s with nodes := s.nodes ++ nodes } := by
    induction nodes with
    | nil => exact fun s => by rw [List.append_nil, List.foldl_nil]
    | cons node nodes ih => exact fun s => by rw [List.foldl_cons, ih, addNode, List.append_assoc, List.singleton_append]
  rw [opened, hadd]
  rfl

/-- **Reading nodes.** What the reader reports for nodes. -/
theorem reads_opened (nodes : List Node) (mode : WhitespaceMode) :
    toBaseReader.Reads (opened nodes mode) (itemsAll (rendering mode) nodes) := by
  refine ⟨eof_not_mem_itemsAll _ _, ?_⟩
  rw [← opened_pending]
  refine Emits.of_pending pending (fun s hnil => ?_) (fun s item items hcons => ?_) _
  · obtain ⟨heof, -⟩ | ⟨-, hcons⟩ := pending_readNext s
    · refine ⟨s.readNext.2, ?_⟩
      rw [next_eq, heof]
      rfl
    · cases hnil.symm.trans hcons
  · obtain ⟨-, hnil⟩ | ⟨-, hcons'⟩ := pending_readNext s
    · cases hnil.symm.trans hcons
    · obtain ⟨hitem, hrest⟩ := List.cons.inj (hcons.symm.trans hcons')
      refine ⟨s.readNext.2, ?_, hrest.symm⟩
      rw [next_eq, hitem]

end NodeReader

end Afl.Io.Xml
