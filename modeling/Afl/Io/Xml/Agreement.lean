import Afl.Io.Xml.NodeReader
import Afl.Io.Xml.RoundTrip

/-!
# The two readers

`NodeReader` over nodes and `Reader` over the document that is written for them. Both are known by how they render
contents, so they report the same if their renderings agree about every content. In all modes but `AllWS`, `NodeReader`
reports a space for every text, and they agree about blank texts only.
-/

namespace Afl.Io.Xml

open Charset Input
open Reader (mark)

/-- The readers report the same tokens. -/
def Agree (env : Environment) (mode : WhitespaceMode) (nodes : List Node) : Prop :=
  ∃ items fuel, NodeReader.toBaseReader.Reads (NodeReader.opened nodes mode) items ∧
    (Reader.toBaseReader env fuel).Reads (Reader.opened (Writer.visitAll nodes) mode) items

/-! ### Names -/

/-- The names of a token have no characters above U+FFFF. -/
def Item.NarrowNames : Item → Prop
  | .tagStart tag | .tagEnd tag | .piStart tag => Narrow tag
  | .tagAttribute tag name _ | .piAttribute tag name _ => Narrow tag ∧ Narrow name
  | _ => True

theorem narrowNames_make {tag name : Bytes} (htag : Narrow tag) (hname : Narrow name) (token : Token) (value : Bytes) :
    (Item.make token tag name value).NarrowNames := by
  cases token with
  | tagStart | tagEnd | piStart => exact htag
  | tagAttribute | piAttribute => exact ⟨htag, hname⟩
  | eof | comment | text | null | error => trivial

variable {mode : WhitespaceMode}

theorem narrowNames_of_reads {env : Environment} {fuel : Nat} {data : Bytes}
    {items : List Item} (h : (Reader.toBaseReader env fuel).Reads (Reader.opened data mode) items) :
    ∀ item ∈ items, item.NarrowNames := by
  obtain ⟨-, t, hemits⟩ := h
  have hall := hemits.forall_mem (I := Reader.Low) (P := Item.NarrowNames) (fun {s item s'} hs hnext => ?_)
    (Reader.low_new ⟨data, 0⟩ mode)
  · exact fun item hmem => hall item (List.mem_append_left _ hmem)
  · obtain ⟨token, hread, hitem⟩ := Parser.readNext_of_next hnext
    have hs' : s'.Low := Reader.low_readNext hs hread
    rw [hitem]
    exact ⟨narrowNames_make hs'.tag hs'.name token _, hs'⟩

mutual

theorem narrowNames_of_items (r : Rendering) (node : Node) (h : ∀ item ∈ node.items r, item.NarrowNames) :
    node.NarrowNames :=
  match node with
  | .text text => by
    rw [Node.NarrowNames]
    trivial
  | .pi name attributes => by
    rw [Node.items, List.forall_mem_cons] at h
    rw [Node.NarrowNames]
    exact ⟨h.1, fun a ha => (h.2 _ (List.mem_map_of_mem ha)).2⟩
  | .tag name attributes children => by
    simp only [Node.items, List.cons_append, List.forall_mem_cons, List.forall_mem_append] at h
    rw [Node.NarrowNames]
    exact ⟨h.1, fun a ha => (h.2.1.1 _ (List.mem_map_of_mem ha)).2, narrowNamesList_of_items r children h.2.1.2⟩

theorem narrowNamesList_of_items (r : Rendering) (nodes : List Node)
    (h : ∀ item ∈ itemsAll r nodes, item.NarrowNames) : NarrowNamesList nodes :=
  match nodes with
  | [] => by
    rw [NarrowNamesList]
    trivial
  | node :: nodes => by
    rw [itemsAll, List.forall_mem_append] at h
    rw [NarrowNamesList]
    exact ⟨narrowNames_of_items r node h.1, narrowNamesList_of_items r nodes h.2⟩

end

variable {nodes : List Node}

theorem agree_iff (createCharset : Bytes → Option Codepage) (mode : WhitespaceMode) (h : NormalList nodes) :
    Agree (defaultEnvironment createCharset) mode nodes ↔
      NarrowNamesList nodes ∧
        itemsAll (NodeReader.rendering mode) nodes = itemsAll (readerRendering mode) (Reader.stripMark nodes) := by
  have hnodes := NodeReader.reads_opened nodes mode
  have hdocument : NarrowNamesList nodes →
      ∃ fuel, (Reader.toBaseReader (defaultEnvironment createCharset) fuel).Reads
        (Reader.opened (Writer.visitAll nodes) mode) (itemsAll (readerRendering mode) (Reader.stripMark nodes)) :=
    Reader.reads_visitAll createCharset mode h
  constructor
  · rintro ⟨items, fuel, hreads, hreads'⟩
    obtain rfl := hreads.unique hnodes
    have hnarrow := narrowNamesList_of_items _ nodes (narrowNames_of_reads hreads')
    refine ⟨hnarrow, ?_⟩
    obtain ⟨fuel', hwritten⟩ := hdocument hnarrow
    exact (Reader.reads_mono (Nat.le_max_left fuel fuel') hreads').unique
      (Reader.reads_mono (Nat.le_max_right fuel fuel') hwritten)
  · rintro ⟨hnarrow, hitems⟩
    obtain ⟨fuel, hwritten⟩ := hdocument hnarrow
    rw [← hitems] at hwritten
    exact ⟨_, fuel, hnodes, hwritten⟩

/-! ### Renderings -/

mutual

/-- Two renderings agree about the contents of a node. -/
def Node.Agrees (r r' : Rendering) : Node → Prop
  | .pi _ attributes => ∀ a ∈ attributes, r.field a.2 = r'.field a.2
  | .tag _ attributes children => (∀ a ∈ attributes, r.value a.2 = r'.value a.2) ∧ AgreesList r r' children
  | .text text => r.text text = r'.text text

def AgreesList (r r' : Rendering) : List Node → Prop
  | [] => True
  | node :: nodes => node.Agrees r r' ∧ AgreesList r r' nodes

end

/-- The tokens do not begin with a text. -/
def NoText (k : List Item) : Prop := ∀ value, .text value ∉ k.head?

variable {r r' : Rendering} {k k' : List Item}

theorem noText_nil : NoText [] := fun _ h => nomatch h

theorem noText_tagEnd (tag : Bytes) (k : List Item) : NoText (.tagEnd tag :: k) := fun _ h => nomatch h

theorem noText_itemsAll (hnodes : ∀ next ∈ nodes.head?, next.isText = false) (hk : NoText k) :
    NoText (itemsAll r nodes ++ k) := by
  match nodes with
  | [] => exact hk
  | .pi name attributes :: nodes =>
    rw [itemsAll, Node.items]
    exact fun _ h => nomatch h
  | .tag name attributes children :: nodes =>
    rw [itemsAll, Node.items]
    exact fun _ h => nomatch h
  | .text text :: nodes => cases hnodes _ rfl

theorem text_append_inj {o o' : Option Bytes} (hk : NoText k) (hk' : NoText k') :
    o.toList.map Item.text ++ k = o'.toList.map Item.text ++ k' ↔ o = o' ∧ k = k' := by
  constructor
  · intro h
    cases o with
    | none =>
      cases o' with
      | none => exact ⟨rfl, h⟩
      | some value' =>
        have hk₁ : k = .text value' :: k' := h
        exact absurd (hk₁ ▸ rfl) (hk value')
    | some value =>
      cases o' with
      | none =>
        have hk₁ : .text value :: k = k' := h
        exact absurd (hk₁ ▸ rfl) (hk' value)
      | some value' =>
        obtain ⟨hitem, hrest⟩ := List.cons.inj h
        exact ⟨congrArg some (Item.text.inj hitem), hrest⟩
  · rintro ⟨rfl, rfl⟩
    rfl

theorem map_append_inj {α : Type} {f g : α → Item} {l : List α} (h : l.map f ++ k = l.map g ++ k') :
    (∀ a ∈ l, f a = g a) ∧ k = k' := by
  have hlength : (l.map f).length = (l.map g).length := by rw [List.length_map, List.length_map]
  obtain ⟨hmap, hrest⟩ := List.append_inj h hlength
  exact ⟨List.map_inj_left.mp hmap, hrest⟩

mutual

theorem agrees_of_items (node : Node) (hnode : node.Normal) {k k' : List Item} (hk : node.isText = true → NoText k ∧ NoText k')
    (h : node.items r ++ k = node.items r' ++ k') : node.Agrees r r' ∧ k = k' :=
  match node with
  | .text text => by
    obtain ⟨hnext, hnext'⟩ := hk rfl
    rw [Node.items, Node.items, text_append_inj hnext hnext'] at h
    rw [Node.Agrees]
    exact h
  | .pi name attributes => by
    rw [Node.items, Node.items, List.cons_append, List.cons_append, List.cons.injEq] at h
    obtain ⟨hattributes, hrest⟩ := map_append_inj h.2
    rw [Node.Agrees]
    exact ⟨fun a ha => (Item.piAttribute.inj (hattributes a ha)).2.2, hrest⟩
  | .tag name attributes children => by
    rw [Node.Normal] at hnode
    rw [Node.items, Node.items] at h
    simp only [List.cons_append, List.append_assoc, List.cons.injEq, true_and] at h
    obtain ⟨hattributes, hrest⟩ := map_append_inj h
    obtain ⟨hchildren, hend⟩ := agreesList_of_items children hnode.2.2 (noText_tagEnd name _) (noText_tagEnd name _) hrest
    rw [Node.Agrees]
    exact ⟨⟨fun a ha => (Item.tagAttribute.inj (hattributes a ha)).2.2, hchildren⟩, (List.cons.inj hend).2⟩

theorem agreesList_of_items (nodes : List Node) (hnodes : NormalList nodes) {k k' : List Item} (hk : NoText k)
    (hk' : NoText k') (h : itemsAll r nodes ++ k = itemsAll r' nodes ++ k') : AgreesList r r' nodes ∧ k = k' :=
  match nodes with
  | [] => by
    rw [AgreesList]
    exact ⟨trivial, h⟩
  | node :: nodes => by
    rw [NormalList] at hnodes
    rw [itemsAll, itemsAll, List.append_assoc, List.append_assoc] at h
    obtain ⟨hnode, hrest⟩ := agrees_of_items node hnodes.1
      (fun htext => ⟨noText_itemsAll (hnodes.2.1 htext) hk, noText_itemsAll (hnodes.2.1 htext) hk'⟩) h
    obtain ⟨hlist, hrest'⟩ := agreesList_of_items nodes hnodes.2.2 hk hk' hrest
    rw [AgreesList]
    exact ⟨⟨hnode, hlist⟩, hrest'⟩

end

mutual

theorem items_of_agrees (node : Node) (h : node.Agrees r r') : node.items r = node.items r' :=
  match node with
  | .text text => by
    rw [Node.Agrees] at h
    rw [Node.items, Node.items, h]
  | .pi name attributes => by
    rw [Node.Agrees] at h
    rw [Node.items, Node.items]
    exact congrArg _ (List.map_congr_left fun a ha => by rw [h a ha])
  | .tag name attributes children => by
    rw [Node.Agrees] at h
    have hmap : attributes.map (fun a => Item.tagAttribute name a.1 (r.value a.2)) =
        attributes.map fun a => Item.tagAttribute name a.1 (r'.value a.2) :=
      List.map_congr_left fun a ha => by rw [h.1 a ha]
    rw [Node.items, Node.items, hmap, itemsAll_of_agrees children h.2]

theorem itemsAll_of_agrees (nodes : List Node) (h : AgreesList r r' nodes) : itemsAll r nodes = itemsAll r' nodes :=
  match nodes with
  | [] => rfl
  | node :: nodes => by
    rw [AgreesList] at h
    rw [itemsAll, itemsAll, items_of_agrees node h.1, itemsAll_of_agrees nodes h.2]

end

/-- **Renderings.** The tokens of nodes in normal form are the same if and only if the renderings agree about every
content. -/
theorem itemsAll_eq_iff (h : NormalList nodes) :
    itemsAll r nodes = itemsAll r' nodes ↔ AgreesList r r' nodes := by
  constructor
  · intro hitems
    have happend : itemsAll r nodes ++ [] = itemsAll r' nodes ++ [] := by rw [hitems]
    exact (agreesList_of_items nodes h noText_nil noText_nil happend).1
  · exact itemsAll_of_agrees nodes

/-! ### The renderings of the two readers -/

/-- A text that both readers report alike. -/
def SameText (mode : WhitespaceMode) (text : Bytes) : Prop :=
  if mode = .allWS then Narrow text else text.all Reader.isBlank = true

mutual

/-- Nodes that both readers report alike. -/
def Node.Same (mode : WhitespaceMode) : Node → Prop
  | .pi name attributes =>
    Narrow name ∧ ∀ a ∈ attributes, Narrow a.1 ∧ Narrow a.2 ∧ ∀ b ∈ a.2, isSpecial b = false
  | .tag name attributes children =>
    Narrow name ∧ (∀ a ∈ attributes, Narrow a.1 ∧ Narrow a.2) ∧ SameList mode children
  | .text text => SameText mode text

def SameList (mode : WhitespaceMode) : List Node → Prop
  | [] => True
  | node :: nodes => node.Same mode ∧ SameList mode nodes

end

/-- The whole list: a byte order mark at the beginning, which `Reader` skips, does not show if white space follows it
and both readers make a space of the text. -/
def Same (mode : WhitespaceMode) : List Node → Prop
  | .text text :: nodes =>
    (if mark <+: text then mode = .singleWS ∧ text ≠ mark ∧ (text.drop 3).all Reader.isBlank = true
      else SameText mode text) ∧ SameList mode nodes
  | nodes => SameList mode nodes

variable {text : Bytes}

theorem narrow_of_isBlank (h : text.all Reader.isBlank = true) : Narrow text := by
  intro b hb
  have hblank := List.all_eq_true.mp h b hb
  simp only [Reader.isBlank, Bool.or_eq_true, beq_iff_eq] at hblank
  rcases hblank with ((rfl | rfl) | rfl) | rfl <;> decide

theorem narrow_of_isBlank_recode (htext : Content text)
    (h : (recode text).all Reader.isBlank = true) : Narrow text := by
  obtain ⟨runes, hrunes, rfl⟩ := htext
  have hunicode : Unicode runes := fun ch hch => (hrunes ch hch).2
  rw [recode, chars_appendAll_self hunicode] at h
  refine (narrow_appendAll_iff hunicode).mpr fun ch hch => ?_
  by_contra hwide
  obtain ⟨b, bytes, hbytes⟩ := List.exists_cons_of_ne_nil (Utf8Reader.append_ne_nil 0 ch)
  have hb : b ∈ Utf8.append 0 ch := hbytes ▸ List.mem_cons_self
  have hge : 0x80 ≤ b.toNat := by
    rcases append_bytes (hunicode ch hch) hb with ⟨hlt, -⟩ | ⟨-, hge, -⟩
    · omega
    · exact hge
  have hseen : b.toUInt32 ∈ runes.flatMap seen := by
    refine List.mem_flatMap.mpr ⟨ch, hch, ?_⟩
    rw [seen_wide (by omega)]
    exact List.mem_map_of_mem hb
  -- the first byte of what comes back for this byte
  obtain ⟨x, bytes', hbytes'⟩ := List.exists_cons_of_ne_nil (Utf8Reader.append_ne_nil 0 b.toUInt32)
  have hx : x ∈ Utf8.append 0 b.toUInt32 := hbytes' ▸ List.mem_cons_self
  have hblank := List.all_eq_true.mp h x (List.mem_flatMap.mpr ⟨_, hseen, hx⟩)
  have hbyte := UInt8.toNat_toUInt32 b
  rcases append_bytes ((toNat_toUInt32_le b).trans (by decide)) hx with ⟨hlt, -⟩ | ⟨-, hle, -⟩
  · omega
  · simp only [Reader.isBlank, Bool.or_eq_true, beq_iff_eq, ← UInt8.toNat_inj, UInt8.reduceToNat] at hblank
    omega

theorem isBlank_recode (htext : Content text) :
    (recode text).all Reader.isBlank = true ↔ text.all Reader.isBlank = true := by
  constructor
  · intro h
    rwa [(recode_eq_iff htext).mpr (narrow_of_isBlank_recode htext h)] at h
  · intro h
    rwa [(recode_eq_iff htext).mpr (narrow_of_isBlank h)]

theorem readerRendering_text (hmode : mode ≠ .allWS) (htext : Content text) (hne : text ≠ []) :
    (readerRendering mode).text text =
      if text.all Reader.isBlank = true then (if mode = .singleWS then some (lit " ") else none)
      else some (recode text) := by
  simp only [readerRendering, shownText, isBlank_recode htext, ne_eq, hmode, not_false_eq_true, true_and]
  by_cases hblank : text.all Reader.isBlank = true
  · rw [if_pos hblank, if_pos hblank]
    by_cases hsingle : mode = .singleWS
    · rw [if_pos hsingle, if_pos hsingle]
      rfl
    · rw [if_neg hsingle, if_neg hsingle]
      rfl
  · rw [if_neg hblank, if_neg hblank, if_neg (recode_ne_nil htext hne)]

theorem space_eq_iff (hmode : mode ≠ .allWS) (htext : Content text) (hne : text ≠ []) :
    some (lit " ") = (readerRendering mode).text text ↔ mode = .singleWS ∧ text.all Reader.isBlank = true := by
  rw [readerRendering_text hmode htext hne]
  split_ifs with hblank hsingle
  · exact ⟨fun _ => ⟨hsingle, hblank⟩, fun _ => rfl⟩
  · exact ⟨nofun, fun h => absurd h.1 hsingle⟩
  · refine ⟨fun h => absurd ((isBlank_recode htext).mp ?_) hblank, fun h => absurd h.2 hblank⟩
    rw [← Option.some.inj h]
    rfl

theorem nodeRendering_text (hmode : mode ≠ .allWS) (text : Bytes) :
    (NodeReader.rendering mode).text text =
      if text.all Reader.isBlank = true ∧ mode = .trimWS then none else some (lit " ") := if_neg hmode

theorem text_eq_iff (mode : WhitespaceMode) (htext : Content text) (hne : text ≠ []) :
    (NodeReader.rendering mode).text text = (readerRendering mode).text text ↔ SameText mode text := by
  unfold SameText
  by_cases hmode : mode = .allWS
  · subst hmode
    have hnode : (NodeReader.rendering .allWS).text text = some text := rfl
    rw [hnode, readerRendering_allWS htext hne, Option.some.injEq, if_pos rfl, eq_comm, recode_eq_iff htext]
  · rw [if_neg hmode, nodeRendering_text hmode]
    split_ifs with hblank
    · rw [readerRendering_text hmode htext hne, if_pos hblank.1, hblank.2]
      exact ⟨fun _ => hblank.1, fun _ => rfl⟩
    · rw [space_eq_iff hmode htext hne]
      refine ⟨And.right, fun hall => ⟨?_, hall⟩⟩
      cases mode with
      | allWS => exact absurd rfl hmode
      | trimWS => exact absurd ⟨hall, rfl⟩ hblank
      | singleWS => rfl

mutual

theorem Node.agrees_iff (mode : WhitespaceMode) (node : Node) (h : node.Normal) :
    node.NarrowNames ∧ node.Agrees (NodeReader.rendering mode) (readerRendering mode) ↔ node.Same mode :=
  match node with
  | .text text => by
    rw [Node.Normal] at h
    rw [Node.NarrowNames, Node.Agrees, Node.Same, text_eq_iff mode h.1 h.2, true_and]
  | .pi name attributes => by
    rw [Node.Normal] at h
    rw [Node.NarrowNames, Node.Agrees, Node.Same, and_assoc, ← forall₂_and]
    refine and_congr_right fun _ => forall₂_congr fun a ha => and_congr_right fun _ => ?_
    rw [← escape_recode_eq_iff (h.2.1.values a ha)]
    exact eq_comm
  | .tag name attributes children => by
    rw [Node.Normal] at h
    have hvalues : (∀ a ∈ attributes, Narrow a.1) ∧
        (∀ a ∈ attributes, (NodeReader.rendering mode).value a.2 = (readerRendering mode).value a.2) ↔
          ∀ a ∈ attributes, Narrow a.1 ∧ Narrow a.2 := by
      rw [← forall₂_and]
      refine forall₂_congr fun a ha => and_congr_right fun _ => ?_
      rw [← recode_eq_iff (h.2.1.values a ha)]
      exact eq_comm
    rw [Node.NarrowNames, Node.Agrees, Node.Same, ← hvalues, ← agreesList_iff mode children h.2.2]
    tauto

theorem agreesList_iff (mode : WhitespaceMode) (nodes : List Node) (h : NormalList nodes) :
    NarrowNamesList nodes ∧ AgreesList (NodeReader.rendering mode) (readerRendering mode) nodes ↔ SameList mode nodes :=
  match nodes with
  | [] => by
    rw [NarrowNamesList, AgreesList, SameList, true_and]
  | node :: nodes => by
    rw [NormalList] at h
    rw [NarrowNamesList, AgreesList, SameList, ← Node.agrees_iff mode node h.1, ← agreesList_iff mode nodes h.2.2]
    tauto

end

/-! ### Texts that begin with a byte order mark -/

theorem nodeRendering_marked (mode : WhitespaceMode) (text : Bytes) :
    (NodeReader.rendering mode).text (mark ++ text) =
      if mode = .allWS then some (mark ++ text) else some (lit " ") := by
  have hblank : ¬(mark ++ text).all Reader.isBlank = true := by
    rw [List.all_append]
    exact nofun
  by_cases hmode : mode = .allWS
  · rw [if_pos hmode, hmode]
    rfl
  · rw [if_neg hmode, nodeRendering_text hmode, if_neg fun h => hblank h.1]

theorem marked_text_eq_iff (mode : WhitespaceMode) (htext : Content text) (hne : text ≠ []) :
    (NodeReader.rendering mode).text (mark ++ text) = (readerRendering mode).text text ↔
      mode = .singleWS ∧ text.all Reader.isBlank = true := by
  rw [nodeRendering_marked]
  by_cases hmode : mode = .allWS
  · subst hmode
    rw [if_pos rfl, readerRendering_allWS htext hne, Option.some.injEq]
    exact ⟨fun hsame => absurd hsame.symm (recode_ne_mark_append htext), nofun⟩
  · rw [if_neg hmode, space_eq_iff hmode htext hne]

theorem marked_items_eq_iff (mode : WhitespaceMode) (h : NormalList (.text text :: nodes)) (hmark : mark <+: text) :
    itemsAll (NodeReader.rendering mode) (.text text :: nodes) =
        itemsAll (readerRendering mode) (Reader.stripMark (.text text :: nodes)) ↔
      (mode = .singleWS ∧ text ≠ mark ∧ (text.drop 3).all Reader.isBlank = true) ∧
        AgreesList (NodeReader.rendering mode) (readerRendering mode) nodes := by
  rw [NormalList, Node.Normal] at h
  obtain ⟨⟨htext, hne⟩, hadjacent, hnodes⟩ := h
  obtain ⟨text', rfl, -, htext'⟩ := (Reader.mark_prefix_escape htext hne []).2 hmark
  have hdrop : (mark ++ text').drop 3 = text' := rfl
  have hsame : mark ++ text' = mark ↔ text' = [] := List.append_right_eq_self
  have hnoText : ∀ r : Rendering, NoText (itemsAll r nodes) := by
    intro r
    rw [← List.append_nil (itemsAll r nodes)]
    exact noText_itemsAll (hadjacent rfl) noText_nil
  -- `Reader` can be without the whole text
  have hfront : ∀ o : Option Bytes,
      itemsAll (NodeReader.rendering mode) (.text (mark ++ text') :: nodes) =
          o.toList.map Item.text ++ itemsAll (readerRendering mode) nodes ↔
        (NodeReader.rendering mode).text (mark ++ text') = o ∧
          AgreesList (NodeReader.rendering mode) (readerRendering mode) nodes := by
    intro o
    rw [itemsAll, Node.items, text_append_inj (hnoText _) (hnoText _), itemsAll_eq_iff hnodes]
  rw [hdrop, Reader.stripMark_text, ne_eq, hsame]
  by_cases hempty : text' = []
  · have hnone := hfront none
    rw [Option.toList_none, List.map_nil, List.nil_append] at hnone
    rw [if_pos hempty, hnone, nodeRendering_marked]
    refine ⟨fun h => ?_, fun h => absurd hempty h.1.2.1⟩
    split_ifs at h
    · cases h.1
    · cases h.1
  · have htokens : itemsAll (readerRendering mode) (.text text' :: nodes) =
        ((readerRendering mode).text text').toList.map Item.text ++ itemsAll (readerRendering mode) nodes := by
      rw [itemsAll, Node.items]
    rw [if_neg hempty, htokens, hfront, marked_text_eq_iff mode htext' hempty]
    exact and_congr_left fun _ => and_congr_right fun _ => (and_iff_right hempty).symm

/-- **Agreement.** The two readers report the same tokens exactly for these nodes. -/
theorem agree_iff_same (createCharset : Bytes → Option Codepage) (mode : WhitespaceMode) {nodes : List Node}
    (h : NormalList nodes) : Agree (defaultEnvironment createCharset) mode nodes ↔ Same mode nodes := by
  rw [agree_iff createCharset mode h]
  have hplain : Reader.stripMark nodes = nodes →
      (NarrowNamesList nodes ∧
          itemsAll (NodeReader.rendering mode) nodes = itemsAll (readerRendering mode) (Reader.stripMark nodes) ↔
        SameList mode nodes) := by
    intro hstrip
    rw [hstrip, itemsAll_eq_iff h, agreesList_iff mode nodes h]
  match nodes with
  | [] => exact hplain rfl
  | .pi name attributes :: nodes => exact hplain rfl
  | .tag name attributes children :: nodes => exact hplain rfl
  | .text text :: nodes =>
    rw [Same]
    by_cases hmark : mark <+: text
    · rw [if_pos hmark, marked_items_eq_iff mode h hmark, NarrowNamesList, Node.NarrowNames, true_and]
      rw [NormalList] at h
      rw [← agreesList_iff mode nodes h.2.2]
      tauto
    · rw [if_neg hmark, hplain (by rw [Reader.stripMark, if_neg hmark]), SameList, Node.Same]

theorem blank_text_agrees :
    NormalList [.tag (lit "p") [(lit "q", lit "<'\"&")] [.text (lit " \n"), .tag (lit "q") [] []]] ∧
      Agree (defaultEnvironment fun _ => none) .singleWS
        [.tag (lit "p") [(lit "q", lit "<'\"&")] [.text (lit " \n"), .tag (lit "q") [] []]] := by
  have hvalue : Content (lit "<'\"&") := .of_ascii (by decide)
  have htext : Content (lit " \n") := .of_ascii (by decide)
  have hnone : NormalAttributes [] := ⟨List.forall_mem_nil _, List.forall_mem_nil _, List.nodup_nil⟩
  have hnormal : NormalList [.tag (lit "p") [(lit "q", lit "<'\"&")] [.text (lit " \n"), .tag (lit "q") [] []]] := by
    have hfalse : ∀ {p : Prop}, false = true → p := fun h => absurd h Bool.false_ne_true
    simp only [NormalList, Node.Normal, Node.isText, and_true]
    refine ⟨⟨validName_p, normalAttributes_q hvalue, ⟨htext, by decide⟩, ?_, ⟨validName_q, hnone⟩, hfalse⟩, hfalse⟩
    exact fun _ next hnext => Option.some.inj hnext ▸ rfl
  refine ⟨hnormal, (agree_iff_same (fun _ => none) .singleWS hnormal).mpr ?_⟩
  simp only [Same, SameList, Node.Same, SameText]
  decide

/-- For any other text, `NodeReader` reports a space. -/
theorem trimmed_text_differs :
    NormalList [.text (lit "a")] ∧
      NodeReader.toBaseReader.Reads (NodeReader.opened [.text (lit "a")] .trimWS) [.text (lit " ")] ∧
      (∃ fuel, (Reader.toBaseReader (defaultEnvironment fun _ => none) fuel).Reads
        (Reader.opened (Writer.visitAll [.text (lit "a")]) .trimWS) [.text (lit "a")]) ∧
      ¬Agree (defaultEnvironment fun _ => none) .trimWS [.text (lit "a")] := by
  have htext : Content (lit "a") := .of_ascii (by decide)
  have hnormal : NormalList [.text (lit "a")] := by
    simp only [NormalList, Node.Normal]
    exact ⟨⟨htext, by decide⟩, nofun, trivial⟩
  have hnarrow : NarrowNamesList [.text (lit "a")] := by
    simp only [NarrowNamesList, Node.NarrowNames, and_self]
  have hrecode : recode (lit "a") = lit "a" := (recode_eq_iff htext).mpr (by decide)
  have hrendering : (readerRendering .trimWS).text (lit "a") = some (lit "a") := by
    rw [readerRendering_text (by decide) htext (by decide), hrecode]
    rfl
  have hitems : itemsAll (readerRendering .trimWS) (Reader.stripMark [.text (lit "a")]) = [.text (lit "a")] := by
    rw [Reader.stripMark, if_neg (by decide), itemsAll, itemsAll, Node.items, hrendering]
    rfl
  have hreads := Reader.reads_visitAll (fun _ => none) .trimWS hnormal hnarrow
  rw [hitems] at hreads
  refine ⟨hnormal, NodeReader.reads_opened _ _, hreads, fun hagree => ?_⟩
  have hsame := ((agree_iff _ .trimWS hnormal).mp hagree).2
  rw [hitems] at hsame
  exact absurd hsame (by decide)

end Afl.Io.Xml
