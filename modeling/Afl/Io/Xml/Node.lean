import Afl.Io.Xml.BaseReader
import Afl.Io.Xml.Runes

/-!
# XML nodes and the writer

The nodes of `afl/io/xml/node.hpp` and the writer of `afl/io/xml/writer.cpp`, and the node lists whose documents are
well-formed.
-/

namespace Afl.Io.Xml

open Charset Input

/-- The attributes of a `NamedNode` with their values, in the order of their names in the `NameMap`. -/
abbrev Attributes := List (Bytes × Bytes)

inductive Node
  | pi (name : Bytes) (attributes : Attributes)
  | tag (name : Bytes) (attributes : Attributes) (children : List Node)
  | text (text : Bytes)

/-- `NamedNode::setAttribute`: a name that is new is added to the map. -/
def setAttribute (name value : Bytes) : Attributes → Attributes
  | [] => [(name, value)]
  | (n, v) :: attributes =>
    if n = name then (n, value) :: attributes else (n, v) :: setAttribute name value attributes

namespace Writer

def writeAttributes (attributes : Attributes) : Bytes :=
  attributes.flatMap fun (name, value) => lit " " ++ name ++ [61, 34] ++ escape value ++ [34]

mutual

/-- `visitPI`, `visitTag` and `visitText`. -/
def visit : Node → Bytes
  | .pi name attributes => lit "<?" ++ name ++ writeAttributes attributes ++ lit "?>"
  | .tag name attributes children =>
    lit "<" ++ name ++ writeAttributes attributes ++
      if children.isEmpty then lit "/>" else lit ">" ++ visitAll children ++ lit "</" ++ name ++ lit ">"
  | .text text => escape text

def visitAll : List Node → Bytes
  | [] => []
  | node :: nodes => visit node ++ visitAll nodes

end

end Writer

/-! ### Names -/

/-- The characters that can begin a name in XML 1.1. -/
def nameStartRanges : List (Nat × Nat) :=
  [(58, 58), (65, 90), (95, 95), (97, 122), (0xC0, 0xD6), (0xD8, 0xF6), (0xF8, 0x2FF), (0x370, 0x37D), (0x37F, 0x1FFF),
    (0x200C, 0x200D), (0x2070, 0x218F), (0x2C00, 0x2FEF), (0x3001, 0xD7FF), (0xF900, 0xFDCF), (0xFDF0, 0xFFFD),
    (0x10000, 0xEFFFF)]

/-- The characters that a name can have after the first one. -/
def nameRanges : List (Nat × Nat) :=
  nameStartRanges ++ [(45, 45), (46, 46), (48, 57), (0xB7, 0xB7), (0x300, 0x36F), (0x203F, 0x2040)]

def inRanges (ranges : List (Nat × Nat)) (ch : Unichar) : Bool :=
  ranges.any fun range => range.1 ≤ ch.toNat && ch.toNat ≤ range.2

/-- A name of XML 1.1, in UTF-8. -/
def ValidName (name : Bytes) : Prop :=
  ∃ ch text, inRanges nameStartRanges ch = true ∧ (∀ c ∈ text, inRanges nameRanges c = true) ∧
    name = Utf8.appendAll 0 (ch :: text)

/-! ### Normal form -/

/-- The attributes have valid names, all different, and any content. -/
structure NormalAttributes (attributes : Attributes) : Prop where
  names : ∀ a ∈ attributes, ValidName a.1
  values : ∀ a ∈ attributes, Content a.2
  nodup : (attributes.map Prod.fst).Nodup

def Node.isText : Node → Bool
  | .text _ => true
  | _ => false

mutual

/-- The nodes of well-formed documents. In XML the name `xml` is not one of a processing instruction; here it is
admitted as long as there is no encoding declaration, which would change how the document is read. -/
def Node.Normal : Node → Prop
  | .pi name attributes =>
    ValidName name ∧ NormalAttributes attributes ∧
      ¬(name = lit "xml" ∧ lit "encoding" ∈ attributes.map Prod.fst)
  | .tag name attributes children => ValidName name ∧ NormalAttributes attributes ∧ NormalList children
  | .text text => Content text ∧ text ≠ []

/-- Normal nodes, with no two texts next to each other. -/
def NormalList : List Node → Prop
  | [] => True
  | node :: nodes =>
    node.Normal ∧ (node.isText = true → ∀ next ∈ nodes.head?, next.isText = false) ∧ NormalList nodes

end

mutual

/-- No name has a character above U+FFFF. -/
def Node.NarrowNames : Node → Prop
  | .pi name attributes => Narrow name ∧ ∀ a ∈ attributes, Narrow a.1
  | .tag name attributes children =>
    Narrow name ∧ (∀ a ∈ attributes, Narrow a.1) ∧ NarrowNamesList children
  | .text _ => True

def NarrowNamesList : List Node → Prop
  | [] => True
  | node :: nodes => node.NarrowNames ∧ NarrowNamesList nodes

end

/-! ### Tokens of nodes -/

/-- How a reader reports contents: a text, which it can leave out, the value of an attribute, and the value of an
attribute of a processing instruction. -/
structure Rendering where
  text : Bytes → Option Bytes
  value : Bytes → Bytes
  field : Bytes → Bytes

mutual

def Node.items (r : Rendering) : Node → List Item
  | .pi name attributes => .piStart name :: attributes.map fun a => .piAttribute name a.1 (r.field a.2)
  | .tag name attributes children =>
    .tagStart name :: attributes.map (fun a => .tagAttribute name a.1 (r.value a.2)) ++
      itemsAll r children ++ [.tagEnd name]
  | .text text => (r.text text).toList.map .text

def itemsAll (r : Rendering) : List Node → List Item
  | [] => []
  | node :: nodes => node.items r ++ itemsAll r nodes

end

mutual

theorem eof_not_mem_items (r : Rendering) (node : Node) : .eof ∉ node.items r :=
  match node with
  | .text text => by simp [Node.items]
  | .pi name attributes => by simp [Node.items]
  | .tag name attributes children => by simp [Node.items, eof_not_mem_itemsAll r children]

theorem eof_not_mem_itemsAll (r : Rendering) (nodes : List Node) : .eof ∉ itemsAll r nodes :=
  match nodes with
  | [] => by simp [itemsAll]
  | node :: nodes => by simp [itemsAll, eof_not_mem_items r node, eof_not_mem_itemsAll r nodes]

end

def verbatim : Rendering := ⟨some, id, id⟩

end Afl.Io.Xml
