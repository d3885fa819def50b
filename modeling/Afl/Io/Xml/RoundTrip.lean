import Afl.Io.Xml.Documents
import Afl.Io.Xml.Names
import Afl.Io.Xml.Parser

/-!
# Parsing what was written

The writer, the reader with all its whitespace, and the parser. The nodes that come back are the `reread` ones; they
are the nodes that were written if these have no character above U+FFFF, no special character in a processing
instruction, and no byte order mark at the beginning.
-/

namespace Afl.Io.Xml

open Charset Input Reader

def Parses (env : Environment) (data : Bytes) (nodes : List Node) : Prop :=
  ∃ fuel p p', Parser.new (toBaseReader env fuel) (opened data .allWS) = some p ∧
    Parser.parseNodes (toBaseReader env fuel) fuel [] p = some (nodes, p')

/-! ### The result of parsing -/

section

variable {env : Environment} {data : Bytes} {nodes nodes' : List Node}

theorem toBaseReader_extends (env : Environment) {fuel fuel' : Nat} (hle : fuel ≤ fuel') :
    Parser.Extends (toBaseReader env fuel) (toBaseReader env fuel') :=
  ⟨Reader.readNext_mono hle, rfl, rfl, rfl⟩

theorem Parses.unique (h : Parses env data nodes) (h' : Parses env data nodes') : nodes = nodes' := by
  obtain ⟨fuel, p, q, hnew, hparse⟩ := h
  obtain ⟨fuel', p', q', hnew', hparse'⟩ := h'
  have hext := toBaseReader_extends env (Nat.le_max_left fuel fuel')
  have hext' := toBaseReader_extends env (Nat.le_max_right fuel fuel')
  have hp : p = p' :=
    Option.some.inj ((Parser.readNext_mono hext hnew).symm.trans (Parser.readNext_mono hext' hnew'))
  subst hp
  have hresult := (Parser.parseNodes_mono hext fuel (Nat.le_max_left fuel fuel') hparse).symm.trans
    (Parser.parseNodes_mono hext' fuel' (Nat.le_max_right fuel fuel') hparse')
  exact congrArg Prod.fst (Option.some.inj hresult)

theorem toBaseReader_narrow (env : Environment) (fuel : Nat) :
    Parser.NarrowStates (toBaseReader env fuel) Reader.Low :=
  ⟨fun hs hread => low_readNext hs hread, fun hs => hs.tag, fun hs => hs.name⟩

theorem Parses.narrowNames (h : Parses env data nodes) : NarrowNamesList nodes := by
  obtain ⟨fuel, p, p', hnew, hparse⟩ := h
  have hp := Parser.readNext_narrow (toBaseReader_narrow env fuel) (low_new ⟨data, 0⟩ .allWS) hnew
  have hnil : NarrowNamesList [] := by
    rw [NarrowNamesList]
    trivial
  exact (Parser.parseNodes_narrow (toBaseReader_narrow env fuel) fuel hp hnil hparse).2

end

/-! ### The nodes that come back -/

mutual

/-- A node as it comes back: in processing instructions, entities are left as they are. -/
def reread : Node → Node
  | .pi name attributes => .pi name (attributes.map fun a => (a.1, escape (recode a.2)))
  | .tag name attributes children => .tag name (attributes.map fun a => (a.1, recode a.2)) (rereadAll children)
  | .text text => .text (recode text)

def rereadAll : List Node → List Node
  | [] => []
  | node :: nodes => reread node :: rereadAll nodes

end

theorem recode_ne_nil {text : Bytes} (htext : Content text) (hne : text ≠ []) : recode text ≠ [] := by
  intro hnil
  obtain ⟨ch, cs, hcs⟩ := List.exists_cons_of_ne_nil (htext.chars_ne_nil hne)
  rw [recode, hcs, appendAll_cons] at hnil
  exact Utf8Reader.append_ne_nil 0 ch (List.append_eq_nil_iff.mp hnil).1

theorem readerRendering_allWS {text : Bytes} (htext : Content text) (hne : text ≠ []) :
    (readerRendering .allWS).text text = some (recode text) := by
  have hshown : shownText .allWS (recode text) = recode text := if_neg fun hmode => hmode.1 rfl
  simp only [readerRendering, hshown, if_neg (recode_ne_nil htext hne)]

mutual

theorem items_reread (node : Node) (h : node.Normal) :
    node.items (readerRendering .allWS) = (reread node).items verbatim :=
  match node with
  | .text text => by
    rw [Node.Normal] at h
    rw [reread, Node.items, Node.items, readerRendering_allWS h.1 h.2]
    rfl
  | .pi name attributes => by
    rw [reread, Node.items, Node.items, List.map_map]
    rfl
  | .tag name attributes children => by
    rw [Node.Normal] at h
    rw [reread, Node.items, Node.items, List.map_map, itemsAll_reread children h.2.2]
    rfl

theorem itemsAll_reread (nodes : List Node) (h : NormalList nodes) :
    itemsAll (readerRendering .allWS) nodes = itemsAll verbatim (rereadAll nodes) :=
  match nodes with
  | [] => rfl
  | node :: nodes => by
    rw [NormalList] at h
    rw [rereadAll, itemsAll, itemsAll, items_reread node h.1, itemsAll_reread nodes h.2.2]

end

theorem nodup_reread {attributes : Attributes} (h : NormalAttributes attributes) (f : Bytes → Bytes) :
    ((attributes.map fun a => (a.1, f a.2)).map Prod.fst).Nodup := by
  rw [List.map_map]
  exact h.nodup

mutual

theorem distinct_reread (node : Node) (h : node.Normal) : Parser.Distinct (reread node) :=
  match node with
  | .text text => by
    rw [reread, Parser.Distinct]
    trivial
  | .pi name attributes => by
    rw [Node.Normal] at h
    rw [reread, Parser.Distinct]
    exact nodup_reread h.2.1 fun value => escape (recode value)
  | .tag name attributes children => by
    rw [Node.Normal] at h
    rw [reread, Parser.Distinct]
    exact ⟨nodup_reread h.2.1 recode, distinctAll_reread children h.2.2⟩

theorem distinctAll_reread (nodes : List Node) (h : NormalList nodes) : Parser.DistinctAll (rereadAll nodes) :=
  match nodes with
  | [] => by
    rw [rereadAll, Parser.DistinctAll]
    trivial
  | node :: nodes => by
    rw [NormalList] at h
    rw [rereadAll, Parser.DistinctAll]
    exact ⟨distinct_reread node h.1, distinctAll_reread nodes h.2.2⟩

end

/-! ### The nodes that come back as they were -/

mutual

/-- Nodes that the reader gets right: it has no characters above U+FFFF, and does not know that entities can stand in
processing instructions. -/
def Node.Readable : Node → Prop
  | .pi name attributes =>
    Narrow name ∧ ∀ a ∈ attributes, Narrow a.1 ∧ Narrow a.2 ∧ ∀ b ∈ a.2, isSpecial b = false
  | .tag name attributes children =>
    Narrow name ∧ (∀ a ∈ attributes, Narrow a.1 ∧ Narrow a.2) ∧ ReadableList children
  | .text text => Narrow text

def ReadableList : List Node → Prop
  | [] => True
  | node :: nodes => node.Readable ∧ ReadableList nodes

end

/-- The nodes begin with a text that begins with U+FEFF, which the reader takes for a byte order mark. -/
def BeginsWithMark : List Node → Prop
  | .text text :: _ => mark <+: text
  | _ => False

mutual

theorem Node.Readable.narrowNames (node : Node) (h : node.Readable) : node.NarrowNames :=
  match node with
  | .text text => by
    rw [Node.NarrowNames]
    trivial
  | .pi name attributes => by
    rw [Node.Readable] at h
    rw [Node.NarrowNames]
    exact ⟨h.1, fun a ha => (h.2 a ha).1⟩
  | .tag name attributes children => by
    rw [Node.Readable] at h
    rw [Node.NarrowNames]
    exact ⟨h.1, fun a ha => (h.2.1 a ha).1, narrowNamesList_of_readable children h.2.2⟩

theorem narrowNamesList_of_readable (nodes : List Node) (h : ReadableList nodes) : NarrowNamesList nodes :=
  match nodes with
  | [] => by
    rw [NarrowNamesList]
    trivial
  | node :: nodes => by
    rw [ReadableList] at h
    rw [NarrowNamesList]
    exact ⟨Node.Readable.narrowNames node h.1, narrowNamesList_of_readable nodes h.2⟩

end

theorem narrow_escape {s : Bytes} (hs : Narrow s) : Narrow (escape s) := by
  intro b hb
  obtain ⟨ch, hch, hmem⟩ := List.mem_flatMap.mp hb
  by_cases hspecial : isSpecial ch = true
  · exact (ascii_escapeChar hspecial).narrow b hmem
  · rw [escapeChar_eq (Bool.eq_false_iff.mpr hspecial), List.mem_singleton] at hmem
    rw [hmem]
    exact hs ch hch

theorem escape_recode_eq_iff {s : Bytes} (hs : Content s) :
    escape (recode s) = s ↔ Narrow s ∧ ∀ b ∈ s, isSpecial b = false := by
  constructor
  · intro h
    have hnarrow : Narrow s := by
      rw [← h]
      exact narrow_escape (narrow_recode s)
    rw [(recode_eq_iff hs).mpr hnarrow] at h
    exact ⟨hnarrow, escape_eq_iff.mp h⟩
  · rintro ⟨hnarrow, hspecial⟩
    rw [(recode_eq_iff hs).mpr hnarrow, escape_eq_iff.mpr hspecial]

theorem map_value_eq_iff (attributes : Attributes) (f : Bytes → Bytes) :
    (attributes.map fun a => (a.1, f a.2)) = attributes ↔ ∀ a ∈ attributes, f a.2 = a.2 := by
  induction attributes with
  | nil => exact ⟨nofun, fun _ => rfl⟩
  | cons a attributes ih =>
    rw [List.map_cons, List.cons.injEq, ih, List.forall_mem_cons, Prod.ext_iff]
    exact and_congr_left fun _ => and_iff_right rfl

mutual

theorem reread_eq_iff (node : Node) (h : node.Normal) (hnarrow : node.NarrowNames) :
    reread node = node ↔ node.Readable :=
  match node with
  | .text text => by
    rw [Node.Normal] at h
    rw [reread, Node.Readable, Node.text.injEq, recode_eq_iff h.1]
  | .pi name attributes => by
    rw [Node.Normal] at h
    rw [Node.NarrowNames] at hnarrow
    rw [reread, Node.Readable, Node.pi.injEq, map_value_eq_iff attributes fun value => escape (recode value)]
    have hvalue : ∀ a ∈ attributes, escape (recode a.2) = a.2 ↔ Narrow a.2 ∧ ∀ b ∈ a.2, isSpecial b = false :=
      fun a ha => escape_recode_eq_iff (h.2.1.values a ha)
    constructor
    · rintro ⟨-, hvalues⟩
      exact ⟨hnarrow.1, fun a ha => ⟨hnarrow.2 a ha, (hvalue a ha).mp (hvalues a ha)⟩⟩
    · rintro ⟨-, hvalues⟩
      exact ⟨rfl, fun a ha => (hvalue a ha).mpr (hvalues a ha).2⟩
  | .tag name attributes children => by
    rw [Node.Normal] at h
    rw [Node.NarrowNames] at hnarrow
    rw [reread, Node.Readable, Node.tag.injEq, map_value_eq_iff attributes recode,
      rereadAll_eq_iff children h.2.2 hnarrow.2.2]
    have hvalue : ∀ a ∈ attributes, recode a.2 = a.2 ↔ Narrow a.2 := fun a ha => recode_eq_iff (h.2.1.values a ha)
    constructor
    · rintro ⟨-, hvalues, hchildren⟩
      exact ⟨hnarrow.1, fun a ha => ⟨hnarrow.2.1 a ha, (hvalue a ha).mp (hvalues a ha)⟩, hchildren⟩
    · rintro ⟨-, hvalues, hchildren⟩
      exact ⟨rfl, fun a ha => (hvalue a ha).mpr (hvalues a ha).2, hchildren⟩

theorem rereadAll_eq_iff (nodes : List Node) (h : NormalList nodes) (hnarrow : NarrowNamesList nodes) :
    rereadAll nodes = nodes ↔ ReadableList nodes :=
  match nodes with
  | [] => by
    rw [rereadAll, ReadableList]
    exact ⟨fun _ => trivial, fun _ => rfl⟩
  | node :: nodes => by
    rw [NormalList] at h
    rw [NarrowNamesList] at hnarrow
    rw [rereadAll, ReadableList, List.cons.injEq, reread_eq_iff node h.1 hnarrow.1,
      rereadAll_eq_iff nodes h.2.2 hnarrow.2]

end

theorem length_rereadAll (nodes : List Node) : (rereadAll nodes).length = nodes.length := by
  induction nodes with
  | nil => rfl
  | cons node nodes ih => rw [rereadAll, List.length_cons, List.length_cons, ih]

theorem stripMark_of_not {nodes : List Node} (h : ¬BeginsWithMark nodes) : stripMark nodes = nodes := by
  match nodes with
  | [] => rfl
  | .pi name attributes :: nodes => rfl
  | .tag name attributes children :: nodes => rfl
  | .text text :: nodes =>
    rw [BeginsWithMark] at h
    rw [stripMark, if_neg h]

theorem recode_ne_mark_append {text : Bytes} (htext : Content text) : recode text ≠ mark ++ text := by
  intro hsame
  -- what comes back has no characters above U+FFFF, so it is the text without the mark
  have hnarrow : Narrow text := (narrow_append.mp (hsame ▸ narrow_recode text)).2
  rw [(recode_eq_iff htext).mpr hnarrow] at hsame
  have hlength := congrArg List.length hsame
  rw [List.length_append] at hlength
  exact absurd hlength (by simp [mark])

theorem rereadAll_stripMark_ne {nodes : List Node} (h : NormalList nodes) (hmark : BeginsWithMark nodes) :
    rereadAll (stripMark nodes) ≠ nodes := by
  match nodes with
  | .text text :: nodes =>
    rw [BeginsWithMark] at hmark
    rw [NormalList, Node.Normal] at h
    obtain ⟨text', rfl, -, htext'⟩ := (mark_prefix_escape h.1.1 h.1.2 []).2 hmark
    rw [stripMark_text]
    intro hsame
    split_ifs at hsame
    · have hlength := congrArg List.length hsame
      rw [length_rereadAll, List.length_cons] at hlength
      omega
    · rw [rereadAll, reread] at hsame
      exact recode_ne_mark_append htext' (Node.text.inj (List.cons.inj hsame).1)

/-! ### The round trip -/

variable (createCharset : Bytes → Option Codepage) {nodes : List Node}

/-- **Parsing documents.** What comes back of nodes that were written. -/
theorem parses_reread (h : NormalList nodes) (hnarrow : NarrowNamesList nodes) :
    Parses (defaultEnvironment createCharset) (Writer.visitAll nodes) (rereadAll (stripMark nodes)) := by
  obtain ⟨fuel, -, t, hemits⟩ := reads_visitAll createCharset .allWS h hnarrow
  obtain ⟨-, hnormal, -⟩ := opened_nodes h .allWS
  rw [itemsAll_reread _ hnormal] at hemits
  obtain ⟨item, rest, hitems⟩ := List.exists_cons_of_ne_nil
    (List.append_ne_nil_of_right_ne_nil (itemsAll verbatim (rereadAll (stripMark nodes))) (List.cons_ne_nil Item.eof []))
  rw [hitems] at hemits
  obtain ⟨p, hnew, hp⟩ := Parser.new_ahead hemits
  rw [← hitems] at hp
  have hstop : Parser.Stop [Item.eof] := ⟨_, _, rfl, .inl rfl⟩
  obtain ⟨n, p', -, hparse⟩ := Parser.parse_nodes _ (distinctAll_reread _ hnormal) hstop [] hp
  -- one fuel for the reader and the parser
  have hext := toBaseReader_extends (defaultEnvironment createCharset) (Nat.le_max_left fuel n)
  exact ⟨max fuel n, p, p', Parser.readNext_mono hext hnew,
    Parser.parseNodes_mono hext n (Nat.le_max_right fuel n) (hparse n (Nat.le_refl n))⟩

/-- **Round trip.** Parsing the document of a list of nodes in normal form gives the nodes back exactly if they are
readable and do not begin with a byte order mark. -/
theorem parses_visitAll_iff (h : NormalList nodes) :
    Parses (defaultEnvironment createCharset) (Writer.visitAll nodes) nodes ↔
      ReadableList nodes ∧ ¬BeginsWithMark nodes := by
  constructor
  · intro hparses
    have hnarrow := hparses.narrowNames
    have hsame := (parses_reread createCharset h hnarrow).unique hparses
    have hmark : ¬BeginsWithMark nodes := fun hmark => rereadAll_stripMark_ne h hmark hsame
    rw [stripMark_of_not hmark] at hsame
    exact ⟨(rereadAll_eq_iff nodes h hnarrow).mp hsame, hmark⟩
  · rintro ⟨hreadable, hmark⟩
    have hnarrow := narrowNamesList_of_readable nodes hreadable
    have hparses := parses_reread createCharset h hnarrow
    rwa [stripMark_of_not hmark, (rereadAll_eq_iff nodes h hnarrow).mpr hreadable] at hparses

theorem validName_p : ValidName (lit "p") := ⟨112, [], by decide, nofun, by decide⟩

theorem validName_q : ValidName (lit "q") := ⟨113, [], by decide, nofun, by decide⟩

theorem normalAttributes_q {value : Bytes} (hvalue : Content value) : NormalAttributes [(lit "q", value)] :=
  ⟨List.forall_mem_singleton.mpr validName_q, List.forall_mem_singleton.mpr hvalue, by simp⟩

theorem special_characters_parse :
    Parses (defaultEnvironment fun _ => none)
      (Writer.visitAll [.tag (lit "p") [(lit "q", lit "<'\"&")] [.text (lit "a>b"), .pi (lit "q") []]])
      [.tag (lit "p") [(lit "q", lit "<'\"&")] [.text (lit "a>b"), .pi (lit "q") []]] := by
  have hvalue : Content (lit "<'\"&") := .of_ascii (by decide)
  have htext : Content (lit "a>b") := .of_ascii (by decide)
  refine (parses_visitAll_iff (fun _ => none) ?_).mpr ⟨?_, nofun⟩
  · simp only [NormalList, Node.Normal, validName_p, validName_q, normalAttributes_q hvalue, htext, Node.isText]
    refine ⟨⟨trivial, trivial, ⟨⟨trivial, by decide⟩, ?_, ⟨trivial, ⟨nofun, nofun, List.nodup_nil⟩, by decide⟩, by decide, trivial⟩⟩,
      by decide, trivial⟩
    exact fun _ next hnext => Option.some.inj hnext ▸ rfl
  · simp only [ReadableList, Node.Readable]
    decide

/-- A special character in a processing instruction does not come back. -/
theorem escaped_field_parses :
    NormalList [.pi (lit "p") [(lit "q", lit "<")]] ∧
      Parses (defaultEnvironment fun _ => none) (Writer.visitAll [.pi (lit "p") [(lit "q", lit "<")]])
        [.pi (lit "p") [(lit "q", lit "&lt;")]] ∧
      ¬Parses (defaultEnvironment fun _ => none) (Writer.visitAll [.pi (lit "p") [(lit "q", lit "<")]])
        [.pi (lit "p") [(lit "q", lit "<")]] := by
  have hvalue : Content (lit "<") := .of_ascii (by decide)
  have hnormal : NormalList [.pi (lit "p") [(lit "q", lit "<")]] := by
    simp only [NormalList, Node.Normal]
    exact ⟨⟨validName_p, normalAttributes_q hvalue, by decide⟩, nofun, trivial⟩
  have hnarrow : NarrowNamesList [.pi (lit "p") [(lit "q", lit "<")]] := by
    simp only [NarrowNamesList, Node.NarrowNames]
    decide
  have hrecode : recode (lit "<") = lit "<" := (recode_eq_iff hvalue).mpr (by decide)
  have hparses := parses_reread (fun _ => none) hnormal hnarrow
  simp only [stripMark, rereadAll, reread, List.map_cons, List.map_nil, hrecode] at hparses
  have hescape : escape (lit "<") = lit "&lt;" := by decide
  rw [hescape] at hparses
  refine ⟨hnormal, hparses, fun hsame => ?_⟩
  have hnodes := hparses.unique hsame
  simp only [List.cons.injEq, Node.pi.injEq, Prod.mk.injEq] at hnodes
  exact absurd hnodes.1.2.1.2 (by decide)

end Afl.Io.Xml
