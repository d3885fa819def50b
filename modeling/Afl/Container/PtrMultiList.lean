import Mathlib.Data.Finmap
import Afl.Lib.Intrusive

/-!
# `PtrMultiListBase`

`afl/container/ptrmultilistbase.cpp`: a list of owned pointers with iterators that survive changes. Nodes and
iterators are both kept in almost doubly-linked lists: a `Node**` is a slot, and `*p` reads it. The addresses of new
nodes and iterators are arguments of the operations. An operation gives no state where the source dereferences a null
pointer or a deleted node, or where a loop does not end.
-/

namespace Afl.Container

open Intrusive

/-- The address of a `Node`. -/
abbrev NodeId := Nat

/-- The address of an `iterator`. -/
abbrev IterId := Nat

/-- What an iterator points at. -/
structure Cursor where
  m_item : Option NodeId
  m_nextItem : Option NodeId
deriving DecidableEq

/-- A list, its nodes and its iterators. `nodes` holds `m_firstNode` and the fields `m_nextNode` and
`m_pThisNode` of every node, `iterators` holds `m_firstIterator`, `m_nextIterator` and `m_pThisIterator`. -/
structure PtrMultiListBase (α : Type) where
  nodes : Links NodeId
  m_pLastNode : Slot NodeId
  /-- `m_data` of the allocated nodes. -/
  m_data : Finmap fun _ : NodeId => α
  iterators : Links IterId
  /-- The iterator objects that exist. -/
  cursors : Finmap fun _ : IterId => Cursor
  /-- The arguments of all calls of `m_deleter`. -/
  deleted : List (Option α)

namespace PtrMultiListBase

variable {α : Type}

def new : PtrMultiListBase α :=
  ⟨⟨none, fun _ => none, fun _ => none⟩, .first, ∅, ⟨none, fun _ => none, fun _ => none⟩, ∅, []⟩

/-- The nodes found by walking `m_firstNode` and `m_nextNode`. -/
def walk (s : PtrMultiListBase α) : List NodeId := s.nodes.walk s.m_data.keys.card

def elements (s : PtrMultiListBase α) : List α := s.walk.filterMap fun n => s.m_data.lookup n

def derefs (s : PtrMultiListBase α) (ns : List NodeId) : Option Unit :=
  if ∀ n ∈ ns, n ∈ s.m_data.keys then some () else none

def slotNode : Slot NodeId → List NodeId
  | .first => []
  | .next n => [n]

/-- `new Node` at the address `n`. -/
def newNode (s : PtrMultiListBase α) (n : NodeId) : Option Unit := if n ∈ s.m_data.keys then none else some ()

/-- Apply `body` to the cursor of the iterator `i`. -/
def updateCursor (body : Cursor → Cursor) (cursors : Finmap fun _ : IterId => Cursor) (i : IterId) :
    Finmap fun _ : IterId => Cursor :=
  match cursors.lookup i with
  | none => cursors
  | some c => cursors.insert i (body c)

/-- `for (iterator* i = m_firstIterator; i != 0; i = i->m_nextIterator)`. -/
def forIterators (s : PtrMultiListBase α) (body : Cursor → Cursor) : PtrMultiListBase α :=
  { s with cursors := (s.iterators.walk s.cursors.keys.card).foldl (updateCursor body) s.cursors }

/-! ### Iterators -/

/-- `iterator::iterator(item, &m_firstIterator)`, at the address `i`. -/
def newIterator (s : PtrMultiListBase α) (i : IterId) (item : Option NodeId) : Option (PtrMultiListBase α) := do
  if i ∈ s.cursors.keys then none
  s.derefs item.toList
  pure { s with
    cursors := s.cursors.insert i ⟨item, item.bind s.nodes.next⟩
    iterators := s.iterators.linkAt .first i }

def unlink (L : Links IterId) (i : IterId) : Links IterId :=
  match L.pThis i with
  | none => L
  | some p => ((L.unlinkFrom p i).setPThis i none).write (.next i) none

def link (L : Links IterId) (i other : IterId) : Links IterId :=
  match L.pThis other with
  | none => (L.write (.next i) none).setPThis i none
  | some p =>
    (((L.write (.next i) (some other)).setPThis i (some p)).write p (some i)).setPThis other (some (.next i))

/-- `iterator::iterator(other)`, at the address `i`. -/
def copyIterator (s : PtrMultiListBase α) (i other : IterId) : Option (PtrMultiListBase α) := do
  if i ∈ s.cursors.keys then none
  let c ← s.cursors.lookup other
  pure { s with cursors := s.cursors.insert i c, iterators := link s.iterators i other }

/-- `iterator::operator=`. -/
def assignIterator (s : PtrMultiListBase α) (i other : IterId) : Option (PtrMultiListBase α) := do
  let _ ← s.cursors.lookup i
  let c ← s.cursors.lookup other
  if i = other then pure s
  else pure { s with cursors := s.cursors.insert i c, iterators := link (unlink s.iterators i) i other }

/-- `end()`, and the default constructor, at the address `i`. -/
def endIterator (s : PtrMultiListBase α) (i : IterId) : Option (PtrMultiListBase α) := do
  if i ∈ s.cursors.keys then none
  pure { s with
    cursors := s.cursors.insert i ⟨none, none⟩
    iterators := (s.iterators.write (.next i) none).setPThis i none }

def beginIterator (s : PtrMultiListBase α) (i : IterId) : Option (PtrMultiListBase α) :=
  s.newIterator i s.nodes.first

def nextIterator (s : PtrMultiListBase α) (i : IterId) : Option (PtrMultiListBase α) := do
  let c ← s.cursors.lookup i
  s.derefs c.m_nextItem.toList
  pure { s with cursors := s.cursors.insert i ⟨c.m_nextItem, c.m_nextItem.bind s.nodes.next⟩ }

def invalidate (s : PtrMultiListBase α) (i : IterId) : Option (PtrMultiListBase α) := do
  let _ ← s.cursors.lookup i
  pure { s with cursors := s.cursors.insert i ⟨none, none⟩, iterators := unlink s.iterators i }

def destroyIterator (s : PtrMultiListBase α) (i : IterId) : Option (PtrMultiListBase α) := do
  let _ ← s.cursors.lookup i
  pure { s with cursors := s.cursors.erase i, iterators := unlink s.iterators i }

/-- The loop of `invalidateAllIterators`. -/
def invalidateLoop : Nat → PtrMultiListBase α → Option (PtrMultiListBase α)
  | fuel, s =>
    match s.iterators.first, fuel with
    | none, _ => some s
    | some _, 0 => none
    | some i, fuel + 1 => do
      let s ← s.invalidate i
      invalidateLoop fuel s

def invalidateAllIterators (s : PtrMultiListBase α) : Option (PtrMultiListBase α) :=
  invalidateLoop s.cursors.keys.card s

/-! ### The list -/

def insertAtEnd (s : PtrMultiListBase α) (n : NodeId) (data : α) : Option (PtrMultiListBase α) := do
  s.newNode n
  s.derefs (slotNode s.m_pLastNode)
  pure { s with
    m_data := s.m_data.insert n data
    nodes := ((s.nodes.write (.next n) none).setPThis n (some s.m_pLastNode)).write s.m_pLastNode (some n)
    m_pLastNode := .next n }

def pushBackNew (s : PtrMultiListBase α) (n : NodeId) (data : α) : Option (PtrMultiListBase α) :=
  s.insertAtEnd n data

def pushFrontNew (s : PtrMultiListBase α) (n : NodeId) (data : α) : Option (PtrMultiListBase α) := do
  s.newNode n
  pure { s with
    m_data := s.m_data.insert n data
    nodes := ((s.nodes.write (.next n) s.nodes.first).setPThis n (some .first)).write .first (some n)
    m_pLastNode := if s.nodes.first = none then .next n else s.m_pLastNode }

/-- The body of the loop of `insertBefore`. -/
def rewriteCursor (item n : NodeId) (c : Cursor) : Cursor :=
  if c.m_item ≠ none ∧ c.m_nextItem = some item then { c with m_nextItem := some n } else c

def insertBefore (s : PtrMultiListBase α) (item n : NodeId) (data : α) : Option (PtrMultiListBase α) := do
  s.newNode n
  s.derefs [item]
  let p ← s.nodes.pThis item
  s.derefs (slotNode p)
  pure (forIterators { s with
    m_data := s.m_data.insert n data
    nodes := (((s.nodes.write (.next n) (some item)).setPThis n (some p)).write p (some n)).setPThis item
      (some (.next n)) } (rewriteCursor item n))

/-- The three cases of `insert`. -/
def insertAt (s : PtrMultiListBase α) (c : Cursor) (n : NodeId) (data : α) : Option (PtrMultiListBase α) :=
  match c.m_item, c.m_nextItem with
  | none, none => s.insertAtEnd n data
  | none, some nextItem => s.insertBefore nextItem n data
  | some item, _ => s.insertBefore item n data

/-- `insert`; `result` is the address of the iterator it returns. -/
def insert (s : PtrMultiListBase α) (iter : IterId) (n : NodeId) (result : IterId) (data : α) :
    Option (PtrMultiListBase α) := do
  let c ← s.cursors.lookup iter
  let s ← s.insertAt c n data
  s.newIterator result (some n)

/-- The body of the loop of `extractElement`; `next` is `item->m_nextNode`. -/
def eraseCursor (item : NodeId) (next : Option NodeId) (c : Cursor) : Cursor :=
  if c.m_item = some item then { c with m_item := none }
  else if c.m_nextItem = some item then { c with m_nextItem := next }
  else c

def removeNode (s : PtrMultiListBase α) (item : NodeId) : Option (PtrMultiListBase α) := do
  s.derefs [item]
  let s := s.forIterators (eraseCursor item (s.nodes.next item))
  let p ← s.nodes.pThis item
  s.derefs (slotNode p ++ (s.nodes.next item).toList)
  pure { s with
    nodes := s.nodes.unlinkFrom p item
    m_pLastNode := if s.nodes.next item = none then p else s.m_pLastNode
    m_data := s.m_data.erase item }

/-- `extractElement`: the extracted pointer and the new state. -/
def extractElement (s : PtrMultiListBase α) (iter : IterId) : Option (Option α × PtrMultiListBase α) := do
  let c ← s.cursors.lookup iter
  match c.m_item with
  | none => pure (none, s)
  | some item => do
    let s' ← s.removeNode item
    pure (s.m_data.lookup item, s')

def deleter (s : PtrMultiListBase α) (data : Option α) : PtrMultiListBase α :=
  { s with deleted := s.deleted ++ [data] }

def erase (s : PtrMultiListBase α) (iter : IterId) : Option (PtrMultiListBase α) := do
  let (data, s) ← s.extractElement iter
  pure (s.deleter data)

def swapElements (s : PtrMultiListBase α) (a b : IterId) : Option (PtrMultiListBase α) := do
  let ca ← s.cursors.lookup a
  let cb ← s.cursors.lookup b
  let x ← ca.m_item
  let y ← cb.m_item
  let dx ← s.m_data.lookup x
  let dy ← s.m_data.lookup y
  pure { s with m_data := (s.m_data.insert x dy).insert y dx }

/-- `extractFront`; `tmp` is the address of the temporary iterator. -/
def extractFront (s : PtrMultiListBase α) (tmp : IterId) : Option (Option α × PtrMultiListBase α) := do
  let s ← s.beginIterator tmp
  let (data, s) ← s.extractElement tmp
  let s ← s.destroyIterator tmp
  pure (data, s)

/-- The loop `while (!empty())` of `clear`. -/
def clearLoop (tmp : IterId) : Nat → PtrMultiListBase α → Option (PtrMultiListBase α)
  | fuel, s =>
    match s.nodes.first, fuel with
    | none, _ => some s
    | some _, 0 => none
    | some _, fuel + 1 => do
      let (data, s) ← s.extractFront tmp
      clearLoop tmp fuel (s.deleter data)

def clear (s : PtrMultiListBase α) (tmp : IterId) : Option (PtrMultiListBase α) := do
  let s ← s.invalidateAllIterators
  clearLoop tmp s.m_data.keys.card s

/-! ### Runs -/

/-- The operations on a list and its iterators. -/
inductive Op (α : Type)
  | pushBackNew (n : NodeId) (data : α)
  | pushFrontNew (n : NodeId) (data : α)
  | insert (iter : IterId) (n : NodeId) (result : IterId) (data : α)
  | erase (iter : IterId)
  | extractElement (iter : IterId)
  | swapElements (a b : IterId)
  | extractFront (tmp : IterId)
  | clear (tmp : IterId)
  | beginIterator (i : IterId)
  | endIterator (i : IterId)
  | copyIterator (i other : IterId)
  | assignIterator (i other : IterId)
  | nextIterator (i : IterId)
  | invalidate (i : IterId)
  | destroyIterator (i : IterId)
  | invalidateAllIterators

def exec (s : PtrMultiListBase α) : Op α → Option (PtrMultiListBase α)
  | .pushBackNew n data => s.pushBackNew n data
  | .pushFrontNew n data => s.pushFrontNew n data
  | .insert iter n result data => s.insert iter n result data
  | .erase iter => s.erase iter
  | .extractElement iter => (s.extractElement iter).map (·.2)
  | .swapElements a b => s.swapElements a b
  | .extractFront tmp => (s.extractFront tmp).map (·.2)
  | .clear tmp => s.clear tmp
  | .beginIterator i => s.beginIterator i
  | .endIterator i => s.endIterator i
  | .copyIterator i other => s.copyIterator i other
  | .assignIterator i other => s.assignIterator i other
  | .nextIterator i => s.nextIterator i
  | .invalidate i => s.invalidate i
  | .destroyIterator i => s.destroyIterator i
  | .invalidateAllIterators => s.invalidateAllIterators

end PtrMultiListBase

end Afl.Container
