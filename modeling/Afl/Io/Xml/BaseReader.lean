import Afl.Base.Bytes
import Afl.Lib.Emits

/-!
# The interface of XML readers

`afl/io/xml/basereader.hpp`. A reader returns one token after another; the properties of a token are asked for
afterwards. `Item` is a token together with the properties it has according to the interface, and the other
properties are undefined.
-/

namespace Afl.Io.Xml

inductive Token
  | eof
  | tagStart
  | tagAttribute
  | tagEnd
  | piStart
  | piAttribute
  | comment
  | text
  | null
  | error
  deriving DecidableEq

inductive WhitespaceMode
  | trimWS
  | singleWS
  | allWS
  deriving DecidableEq

/-- `BaseReader`, over the states of a reader. A call of `readNext` may fail to return. -/
structure BaseReader (σ : Type) where
  readNext : σ → Option (Token × σ)
  getTag : σ → Bytes
  getName : σ → Bytes
  getValue : σ → Bytes

/-- A token with its properties. -/
inductive Item
  | eof
  | tagStart (tag : Bytes)
  | tagAttribute (tag name value : Bytes)
  | tagEnd (tag : Bytes)
  | piStart (tag : Bytes)
  | piAttribute (tag name value : Bytes)
  | comment (value : Bytes)
  | text (value : Bytes)
  | null
  | error
  deriving DecidableEq

def Item.make (token : Token) (tag name value : Bytes) : Item :=
  match token with
  | .eof => .eof
  | .tagStart => .tagStart tag
  | .tagAttribute => .tagAttribute tag name value
  | .tagEnd => .tagEnd tag
  | .piStart => .piStart tag
  | .piAttribute => .piAttribute tag name value
  | .comment => .comment value
  | .text => .text value
  | .null => .null
  | .error => .error

/-- A call of `readNext`, and what the user can then learn about the token. -/
def BaseReader.next {σ : Type} (reader : BaseReader σ) (s : σ) : Option (Item × σ) :=
  match reader.readNext s with
  | none => none
  | some (token, s) => some (.make token (reader.getTag s) (reader.getName s) (reader.getValue s), s)

/-- The tokens of a reader, up to the end of its document. -/
def BaseReader.Reads {σ : Type} (reader : BaseReader σ) (s : σ) (items : List Item) : Prop :=
  .eof ∉ items ∧ ∃ t, Emits reader.next s (items ++ [.eof]) t

theorem BaseReader.Reads.unique {σ : Type} {reader : BaseReader σ} {s : σ} {items items' : List Item}
    (h : reader.Reads s items) (h' : reader.Reads s items') : items = items' := by
  obtain ⟨heof, t, hemits⟩ := h
  obtain ⟨heof', t', hemits'⟩ := h'
  exact hemits.unique hemits' heof heof'

end Afl.Io.Xml
