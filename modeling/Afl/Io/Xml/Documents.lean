import Afl.Io.Xml.Tokens

/-!
# Reading what was written

The tokens that the XML reader reports for a list of nodes that was written. Names must not have characters above
U+FFFF here; contents are arbitrary.
-/

namespace Afl.Io.Xml

open Charset Input

/-! ### The characters of what was written -/

theorem Content.chars_append {v : Bytes} (hv : Content v) (r : Bytes) : chars (v ++ r) = chars v ++ chars r := by
  obtain ⟨text, htext, rfl⟩ := hv
  have hunicode : Unicode text := fun ch hch => (htext ch hch).2
  rw [chars_appendAll hunicode, chars_appendAll_self hunicode]

theorem toNat_le_of_inRanges {ch : Unichar} (h : inRanges nameRanges ch = true) : 0 < ch.toNat ∧ ch.toNat ≤ 0x10FFFF := by
  simp only [inRanges, nameRanges, nameStartRanges, List.cons_append, List.nil_append, List.any_cons, List.any_nil,
    Bool.or_eq_true, Bool.and_eq_true, decide_eq_true_eq, Bool.or_false] at h
  omega

theorem inRanges_start {ch : Unichar} (h : inRanges nameStartRanges ch = true) : inRanges nameRanges ch = true := by
  rw [inRanges, nameRanges, List.any_append, Bool.or_eq_true]
  exact .inl h

theorem ValidName.content {name : Bytes} (h : ValidName name) : Content name := by
  obtain ⟨ch, text, hch, htext, rfl⟩ := h
  refine ⟨ch :: text, List.forall_mem_cons.mpr ⟨?_, ?_⟩, rfl⟩
  · exact toNat_le_of_inRanges (inRanges_start hch)
  · exact fun c hc => toNat_le_of_inRanges (htext c hc)

theorem ValidName.chars {name : Bytes} (h : ValidName name) (hnarrow : Narrow name) :
    chars name ≠ [] ∧ (∀ c ∈ chars name, Plain c) ∧ Utf8.appendAll 0 (chars name) = name := by
  have hrecode : recode name = name := (recode_eq_iff h.content).mpr hnarrow
  obtain ⟨ch, text, hch, htext, rfl⟩ := h
  have hranges : ∀ c ∈ ch :: text, inRanges nameRanges c = true :=
    List.forall_mem_cons.mpr ⟨inRanges_start hch, htext⟩
  have hunicode : Unicode (ch :: text) := fun c hc => (toNat_le_of_inRanges (hranges c hc)).2
  have hsame : Xml.chars (Utf8.appendAll 0 (ch :: text)) = ch :: text := by
    rw [chars_appendAll_self hunicode, flatMap_seen ((narrow_appendAll_iff hunicode).mp hnarrow)]
  refine ⟨?_, ?_, hrecode⟩
  · rw [hsame]
    exact List.cons_ne_nil ch text
  · rw [hsame]
    exact fun c hc => plain_of_inRanges (hranges c hc)

theorem chars_ascii {a : UInt8} (ha : a < 0x80) (r : Bytes) : chars (a :: r) = a.toUInt32 :: chars r := by
  apply chars_single
  rw [UInt8.lt_iff_toNat_lt] at ha ⊢
  simp only [UInt8.reduceToNat] at ha ⊢
  omega

/-! ### What the reader reports -/

def shownText (mode : WhitespaceMode) (text : Bytes) : Bytes :=
  if mode ≠ .allWS ∧ text.all Reader.isBlank then
    if mode = .singleWS then lit " " else []
  else text

/-- How `Reader` reports contents that were written. -/
def readerRendering (mode : WhitespaceMode) : Rendering where
  text text := if shownText mode (recode text) = [] then none else some (shownText mode (recode text))
  value := recode
  field value := escape (recode value)

def defaultEnvironment (createCharset : Bytes → Option Codepage) : Environment :=
  ⟨DefaultEntityHandler.expandEntityReference, createCharset⟩

theorem all_isBlank_escape (s : Bytes) : (escape s).all Reader.isBlank = s.all Reader.isBlank := by
  have hchar : ∀ ch, (escapeChar ch).all Reader.isBlank = Reader.isBlank ch := by
    intro ch
    unfold escapeChar
    split_ifs with hlt hgt hamp hquot
    · rw [hlt]
      decide
    · rw [hgt]
      decide
    · rw [hamp]
      decide
    · rw [hquot]
      decide
    · simp
  induction s with
  | nil => rfl
  | cons ch s ih => rw [escape_cons, List.all_append, hchar, ih, List.all_cons]

theorem textValue_escape (createCharset : Bytes → Option Codepage) (mode : WhitespaceMode) (text : Bytes) :
    Reader.textValue (defaultEnvironment createCharset) mode (escape text) = shownText mode text := by
  have hexpand : expandEntities (defaultEnvironment createCharset).expandEntityReference (escape text) = text :=
    expandEntities_escape text
  rw [Reader.textValue, shownText, all_isBlank_escape, hexpand]

theorem Content.chars_ne_nil {v : Bytes} (hv : Content v) (hne : v ≠ []) : chars v ≠ [] := by
  intro hnil
  obtain ⟨text, htext, rfl⟩ := hv
  have hunicode : Unicode text := fun ch hch => (htext ch hch).2
  rw [chars_appendAll_self hunicode, List.flatMap_eq_nil_iff] at hnil
  cases text with
  | nil => exact hne rfl
  | cons ch text =>
    have hseen := hnil ch List.mem_cons_self
    unfold seen at hseen
    split_ifs at hseen
    exact Utf8Reader.append_ne_nil 0 ch (List.map_eq_nil_iff.mp hseen)

theorem escape_ne_nil {v : Bytes} (hne : v ≠ []) : escape v ≠ [] := by
  intro hnil
  have hle := length_le_escape v
  rw [hnil, List.length_nil, Nat.le_zero, List.length_eq_zero_iff] at hle
  exact hne hle

namespace Reader

variable {env : Environment} {fuel : Nat} {s s' : Reader}

/-! ### Tokens that are not reported -/

/-- The tokens that `readNext` reports. -/
def isReported : Item → Bool
  | .null => false
  | .text value => value != []
  | _ => true

theorem isReported_make (token : Token) (s : Reader) :
    isReported (.make token s.tag s.name s.value) = !isIgnored token s := by
  cases token <;> simp [isReported, Item.make, isIgnored, bne]

theorem token_of_tokenNext {item : Item} (h : tokenNext env fuel s = some (item, s')) :
    ∃ t, readNextToken env fuel s = some (t, s') ∧ isIgnored t s' = !isReported item := by
  unfold tokenNext at h
  split at h
  · cases h
  · next token s'' htoken =>
    cases h
    exact ⟨token, htoken, by rw [isReported_make, Bool.not_not]⟩

theorem emits_next {items : List Item} {last : Item} {fuel' : Nat} (h : Emits (tokenNext env fuel) s (items ++ [last]) s')
    (hlast : isReported last = true) (hfuel : fuel + items.length ≤ fuel') :
    Emits (toBaseReader env (fuel' + 1)).next s ((items ++ [last]).filter isReported) s' := by
  -- a token that is reported is what the call returns
  have hreport : ∀ {item : Item} {s s₁ : Reader} {n : Nat}, tokenNext env fuel s = some (item, s₁) →
      isReported item = true → fuel ≤ n + 1 → (toBaseReader env (n + 1)).next s = some (item, s₁) := by
    intro item s s₁ n hnext hreported hle
    obtain ⟨t, htoken, hignored⟩ := token_of_tokenNext hnext
    rw [hreported] at hignored
    rw [tokenNext_of_token htoken] at hnext
    rw [next_of_readNext (readNext_of_reported htoken hignored hle)]
    exact hnext
  induction items generalizing s fuel' with
  | nil =>
    cases h with
    | cons hnext hnil =>
      cases hnil
      rw [List.nil_append, List.filter_cons_of_pos hlast]
      exact .single (hreport hnext hlast (by omega))
  | cons item items ih =>
    cases h with
    | cons hnext hrest =>
      rw [List.length_cons] at hfuel
      by_cases hreported : isReported item = true
      · rw [List.cons_append, List.filter_cons_of_pos hreported]
        exact .cons (hreport hnext hreported (by omega)) (ih hrest (by omega))
      · -- the next one answers the call
        rw [List.cons_append, List.filter_cons_of_neg hreported]
        obtain ⟨fuel'', rfl⟩ : ∃ n, fuel' = n + 1 := ⟨fuel' - 1, by omega⟩
        have hemits : Emits (toBaseReader env (fuel'' + 1)).next _ _ _ := ih hrest (by omega)
        obtain ⟨first, others, hfilter⟩ : ∃ a l, (items ++ [last]).filter isReported = a :: l := by
          refine List.exists_cons_of_ne_nil (List.ne_nil_of_mem (a := last) ?_)
          exact List.mem_filter.mpr ⟨List.mem_append_right _ List.mem_cons_self, hlast⟩
        rw [hfilter] at hemits ⊢
        cases hemits with
        | cons hfirst hothers =>
          obtain ⟨t, htoken, hignored⟩ := token_of_tokenNext hnext
          rw [Bool.eq_false_iff.mpr hreported] at hignored
          obtain ⟨t', hread⟩ := readNext_of_next hfirst
          have hread' := hread
          rw [← readNext_of_ignored htoken hignored (by omega)] at hread'
          rw [next_of_readNext hread] at hfirst
          refine .cons ?_ (hothers.mono (next_mono (Nat.le_succ _)))
          rw [next_of_readNext hread']
          exact hfirst

/-! ### Attributes -/

/-- An attribute that the reader finds: its name has no characters above U+FFFF. -/
structure ReadableAttribute (a : Bytes × Bytes) : Prop where
  name : ValidName a.1
  narrow : Narrow a.1
  value : Content a.2

variable (createCharset : Bytes → Option Codepage) {mode : WhitespaceMode}

theorem writeAttributes_cons (a : Bytes × Bytes) (attributes : Attributes) (r : Bytes) :
    Writer.writeAttributes (a :: attributes) ++ r =
      lit " " ++ a.1 ++ [61, 34] ++ escape a.2 ++ [34] ++ (Writer.writeAttributes attributes ++ r) := by
  rw [Writer.writeAttributes, List.flatMap_cons, ← Writer.writeAttributes, List.append_assoc]

theorem chars_attributes {a : Bytes × Bytes} (ha : ReadableAttribute a) (attributes : Attributes) (r : Bytes) :
    chars (Writer.writeAttributes (a :: attributes) ++ r) =
      32 :: (chars a.1 ++ 61 :: 34 :: (chars (escape a.2) ++ 34 ::
        chars (Writer.writeAttributes attributes ++ r))) := by
  have hlit : lit " " = [32] := rfl
  rw [writeAttributes_cons, hlit]
  simp only [List.append_assoc, List.cons_append, List.nil_append]
  rw [chars_ascii (by decide), ha.name.content.chars_append, chars_ascii (by decide), chars_ascii (by decide),
    ha.value.escape.chars_append, chars_ascii (by decide)]
  rfl

variable {attributes : Attributes}

theorem head_attributes (h : ∀ a ∈ attributes, ReadableAttribute a) {r : Bytes}
    {stop : Unichar} {cs : List Unichar} (hr : chars r = stop :: cs) :
    ∃ stop' cs', chars (Writer.writeAttributes attributes ++ r) = stop' :: cs' ∧ (stop' = 32 ∨ stop' = stop) := by
  cases attributes with
  | nil => exact ⟨stop, cs, hr, .inr rfl⟩
  | cons a attributes => exact ⟨32, _, chars_attributes (h a List.mem_cons_self) attributes r, .inl rfl⟩

theorem expandEntities_recode {v : Bytes} (hv : Content v) :
    expandEntities DefaultEntityHandler.expandEntityReference (Utf8.appendAll 0 (chars (escape v))) = recode v := by
  rw [← recode, recode_escape hv, expandEntities_escape]

theorem emits_tagAttributes (h : ∀ a ∈ attributes, ReadableAttribute a) {r : Bytes}
    {stop : Unichar} {cs : List Unichar} (hr : chars r = stop :: cs) (hstop : stop = 47 ∨ stop = 62)
    (hs : Stands s .inTag mode (chars (Writer.writeAttributes attributes ++ r))) :
    ∃ s', Emits (tokenNext (defaultEnvironment createCharset) 0) s
        (attributes.map fun a => .tagAttribute s.tag a.1 (recode a.2)) s' ∧
      Stands s' .inTag mode (chars r) ∧ s'.tag = s.tag := by
  induction attributes generalizing s with
  | nil => exact ⟨s, .nil s, hs, rfl⟩
  | cons a attributes ih =>
    obtain ⟨ha, hrest⟩ := List.forall_mem_cons.mp h
    obtain ⟨hne, hplain, hname⟩ := ha.name.chars ha.narrow
    obtain ⟨stop', cs', hhead, hstop'⟩ := head_attributes hrest hr
    have hstops : stop' = 32 ∨ stop' = 47 ∨ stop' = 62 := by
      rcases hstop' with rfl | rfl
      · exact .inl rfl
      · exact .inr hstop
    rw [chars_attributes ha, hhead] at hs
    obtain ⟨s₁, htoken, hs₁, htag₁⟩ := token_tagAttribute (defaultEnvironment createCharset) 0 hs hne hplain
      (not_mem_chars_escape ha.value).2 hstops
    rw [← hhead] at hs₁
    obtain ⟨s', hemits, hs', htag'⟩ := ih hrest hs₁
    have hvalue : expandEntities (defaultEnvironment createCharset).expandEntityReference _ = _ :=
      expandEntities_recode ha.value
    rw [hname, hvalue] at htoken
    rw [htag₁] at hemits
    exact ⟨s', .cons htoken hemits, hs', htag'.trans htag₁⟩

theorem emits_piAttributes (h : ∀ a ∈ attributes, ReadableAttribute a) {r : Bytes}
    {cs : List Unichar} (hr : chars r = 63 :: cs)
    (hencoding : ¬(s.tag = lit "xml" ∧ lit "encoding" ∈ attributes.map Prod.fst))
    (hs : Stands s .inPI mode (chars (Writer.writeAttributes attributes ++ r))) :
    ∃ s', Emits (tokenNext (defaultEnvironment createCharset) 0) s
        (attributes.map fun a => .piAttribute s.tag a.1 (escape (recode a.2))) s' ∧
      Stands s' .inPI mode (chars r) ∧ s'.tag = s.tag := by
  induction attributes generalizing s with
  | nil => exact ⟨s, .nil s, hs, rfl⟩
  | cons a attributes ih =>
    obtain ⟨ha, hrest⟩ := List.forall_mem_cons.mp h
    obtain ⟨hne, hplain, hname⟩ := ha.name.chars ha.narrow
    obtain ⟨stop', cs', hhead, hstop'⟩ := head_attributes hrest hr
    rw [List.map_cons, List.mem_cons] at hencoding
    have hfirst : ¬(s.tag = lit "xml" ∧ Utf8.appendAll 0 (chars a.1) = lit "encoding") := by
      rw [hname]
      exact fun hxml => hencoding ⟨hxml.1, .inl hxml.2.symm⟩
    rw [chars_attributes ha, hhead] at hs
    obtain ⟨s₁, htoken, hs₁, htag₁⟩ := token_piAttribute (defaultEnvironment createCharset) 0 hs hne hplain
      (not_mem_chars_escape ha.value).2 hstop' hfirst
    rw [← hhead] at hs₁
    obtain ⟨s', hemits, hs', htag'⟩ := ih hrest (fun hxml => hencoding ⟨htag₁ ▸ hxml.1, .inr hxml.2⟩) hs₁
    rw [hname, ← recode, recode_escape ha.value] at htoken
    rw [htag₁] at hemits
    exact ⟨s', .cons htoken hemits, hs', htag'.trans htag₁⟩

/-! ### Nodes -/

theorem readableAttribute_of (hnormal : NormalAttributes attributes)
    (hnarrow : ∀ a ∈ attributes, Narrow a.1) : ∀ a ∈ attributes, ReadableAttribute a := fun a ha =>
  ⟨hnormal.names a ha, hnarrow a ha, hnormal.values a ha⟩

theorem filter_tagAttributes (tag : Bytes) (value : Bytes → Bytes) (attributes : Attributes) :
    (attributes.map fun a => Item.tagAttribute tag a.1 (value a.2)).filter isReported =
      attributes.map fun a => Item.tagAttribute tag a.1 (value a.2) :=
  List.filter_eq_self.mpr fun item hitem => by
    obtain ⟨a, -, rfl⟩ := List.mem_map.mp hitem
    rfl

theorem filter_piAttributes (tag : Bytes) (value : Bytes → Bytes) (attributes : Attributes) :
    (attributes.map fun a => Item.piAttribute tag a.1 (value a.2)).filter isReported =
      attributes.map fun a => Item.piAttribute tag a.1 (value a.2) :=
  List.filter_eq_self.mpr fun item hitem => by
    obtain ⟨a, -, rfl⟩ := List.mem_map.mp hitem
    rfl

theorem emits_text {text r : Bytes} (htext : Content text) (hne : text ≠ [])
    (hs : Stands s .main mode (chars (escape text ++ r))) (hr : ∀ ch ∈ (chars r).head?, ch = 60) :
    ∃ l s', Emits (tokenNext (defaultEnvironment createCharset) 0) s l s' ∧
      l.filter isReported = (Node.text text).items (readerRendering mode) ∧ Stands s' .main mode (chars r) := by
  rw [htext.escape.chars_append] at hs
  obtain ⟨s', htoken, hs'⟩ := token_text (defaultEnvironment createCharset) 0 hs
    (htext.escape.chars_ne_nil (escape_ne_nil hne)) (not_mem_chars_escape htext).1 hr
  rw [← recode, recode_escape htext, textValue_escape] at htoken
  refine ⟨_, s', .single htoken, ?_, hs'⟩
  rw [Node.items, readerRendering]
  simp only
  split_ifs with hempty
  · rw [hempty]
    rfl
  · rw [List.filter_cons_of_pos (by simpa [isReported] using hempty)]
    rfl

theorem emits_pi {name r : Bytes} (hnormal : (Node.pi name attributes).Normal)
    (hnarrow : (Node.pi name attributes).NarrowNames)
    (hs : Stands s .main mode (chars (Writer.visit (.pi name attributes) ++ r))) :
    ∃ l s', Emits (tokenNext (defaultEnvironment createCharset) 0) s l s' ∧
      l.filter isReported = (Node.pi name attributes).items (readerRendering mode) ∧
      Stands s' .main mode (chars r) := by
  rw [Node.Normal] at hnormal
  rw [Node.NarrowNames] at hnarrow
  obtain ⟨hname, hattributes, hencoding⟩ := hnormal
  obtain ⟨hne, hplain, hrecode⟩ := hname.chars hnarrow.1
  have hreadable := readableAttribute_of hattributes hnarrow.2
  have hend : chars (lit "?>" ++ r) = 63 :: 62 :: chars r :=
    (chars_ascii (a := 63) (by decide) _).trans (congrArg _ (chars_ascii (a := 62) (by decide) r))
  have hchars : chars (Writer.visit (.pi name attributes) ++ r) =
      60 :: 63 :: (chars name ++ chars (Writer.writeAttributes attributes ++ (lit "?>" ++ r))) := by
    rw [Writer.visit]
    simp only [List.append_assoc]
    rw [← hname.content.chars_append]
    exact (chars_ascii (a := 60) (by decide) _).trans (congrArg _ (chars_ascii (a := 63) (by decide) _))
  obtain ⟨stop, cs, hhead, hstop⟩ := head_attributes hreadable hend
  rw [hchars, hhead] at hs
  obtain ⟨s₁, hstart, hs₁, htag₁⟩ := token_piStart (defaultEnvironment createCharset) 0 hs hne hplain hstop
  rw [hrecode] at hstart htag₁
  rw [← hhead] at hs₁
  obtain ⟨s₂, hemits, hs₂, -⟩ := emits_piAttributes createCharset hreadable hend (by rwa [htag₁]) hs₁
  rw [hend] at hs₂
  obtain ⟨s₃, hclose, hs₃⟩ := token_piEnd (defaultEnvironment createCharset) 0 hs₂
  refine ⟨_, s₃, (Emits.cons hstart hemits).append (.single hclose), ?_, hs₃⟩
  rw [List.filter_append, List.filter_cons_of_pos rfl, htag₁, filter_piAttributes _ fun v => escape (recode v), Node.items]
  exact List.append_nil _

theorem emits_tagOpen {name r : Bytes} (hname : ValidName name) (hnarrow : Narrow name)
    (hreadable : ∀ a ∈ attributes, ReadableAttribute a) {stop : Unichar} {cs : List Unichar}
    (hr : chars r = stop :: cs) (hstop : stop = 47 ∨ stop = 62)
    (hs : Stands s .main mode (chars (lit "<" ++ name ++ Writer.writeAttributes attributes ++ r))) :
    ∃ l s', Emits (tokenNext (defaultEnvironment createCharset) 0) s l s' ∧
      l.filter isReported =
        .tagStart name :: attributes.map (fun a => .tagAttribute name a.1 ((readerRendering mode).value a.2)) ∧
      Stands s' .inTag mode (chars r) ∧ s'.tag = name := by
  obtain ⟨hne, hplain, hrecode⟩ := hname.chars hnarrow
  have hchars : chars (lit "<" ++ name ++ Writer.writeAttributes attributes ++ r) =
      60 :: (chars name ++ chars (Writer.writeAttributes attributes ++ r)) := by
    simp only [List.append_assoc]
    rw [← hname.content.chars_append]
    exact chars_ascii (a := 60) (by decide) _
  obtain ⟨stop', cs', hhead, hstop'⟩ := head_attributes hreadable hr
  have hstops : stop' = 32 ∨ stop' = 47 ∨ stop' = 62 := by
    rcases hstop' with rfl | rfl
    · exact .inl rfl
    · exact .inr hstop
  rw [hchars, hhead] at hs
  obtain ⟨s₁, hstart, hs₁, htag₁⟩ := token_tagStart (defaultEnvironment createCharset) 0 hs hne hplain hstops
  rw [hrecode] at hstart htag₁
  rw [← hhead] at hs₁
  obtain ⟨s₂, hemits, hs₂, htag₂⟩ := emits_tagAttributes createCharset hreadable hr hstop hs₁
  refine ⟨_, s₂, .cons hstart hemits, ?_, hs₂, htag₂.trans htag₁⟩
  rw [List.filter_cons_of_pos rfl, htag₁, filter_tagAttributes]
  rfl

theorem head_visit {node : Node} (hnode : node.isText = false) (r : Bytes) :
    ∀ ch ∈ (chars (Writer.visit node ++ r)).head?, ch = 60 := by
  have hlt : ∀ (d : Bytes), ∀ ch ∈ (chars (60 :: d)).head?, ch = 60 := by
    intro d ch hch
    rw [chars_ascii (by decide)] at hch
    exact (Option.some.inj hch).symm
  cases node with
  | pi name attributes =>
    rw [Writer.visit]
    exact hlt _
  | tag name attributes children =>
    rw [Writer.visit]
    exact hlt _
  | text text => cases hnode

mutual

/-- **Reading a node.** The tokens that are reported are those of the node. -/
theorem emits_node (node : Node) (hnormal : node.Normal) (hnarrow : node.NarrowNames) {s : Reader} {r : Bytes}
    (hs : Stands s .main mode (chars (Writer.visit node ++ r)))
    (hr : node.isText = true → ∀ ch ∈ (chars r).head?, ch = 60) :
    ∃ l s', Emits (tokenNext (defaultEnvironment createCharset) 0) s l s' ∧
      l.filter isReported = node.items (readerRendering mode) ∧ Stands s' .main mode (chars r) :=
  match node with
  | .text text => by
    rw [Node.Normal] at hnormal
    rw [Writer.visit] at hs
    exact emits_text createCharset hnormal.1 hnormal.2 hs (hr rfl)
  | .pi name attributes => emits_pi createCharset hnormal hnarrow hs
  | .tag name attributes children => by
    rw [Node.Normal] at hnormal
    rw [Node.NarrowNames] at hnarrow
    obtain ⟨hname, hattributes, hchildren⟩ := hnormal
    obtain ⟨hne, hplain, hrecode⟩ := hname.chars hnarrow.1
    have hreadable := readableAttribute_of hattributes hnarrow.2.1
    rw [Writer.visit, List.append_assoc] at hs
    cases hempty : children.isEmpty with
    | true =>
      obtain rfl := List.isEmpty_iff.mp hempty
      have hend : chars (lit "/>" ++ r) = 47 :: 62 :: chars r :=
        (chars_ascii (a := 47) (by decide) _).trans (congrArg _ (chars_ascii (a := 62) (by decide) r))
      rw [if_pos hempty] at hs
      obtain ⟨l, s₁, hemits, hitems, hs₁, htag₁⟩ :=
        emits_tagOpen createCharset hname hnarrow.1 hreadable hend (.inl rfl) hs
      rw [hend] at hs₁
      obtain ⟨s₂, hclose, hs₂⟩ := token_emptyTag (defaultEnvironment createCharset) 0 hs₁
      refine ⟨_, s₂, hemits.append (.single hclose), ?_, hs₂⟩
      rw [List.filter_append, hitems, htag₁, Node.items, itemsAll, List.append_nil]
      rfl
    | false =>
      rw [hempty, if_neg (by decide)] at hs
      -- the children, and what follows them
      have hopen : chars (lit ">" ++ Writer.visitAll children ++ lit "</" ++ name ++ lit ">" ++ r) =
          62 :: chars (Writer.visitAll children ++ (lit "</" ++ (name ++ (lit ">" ++ r)))) := by
        simp only [List.append_assoc]
        exact chars_ascii (a := 62) (by decide) _
      have hclose : chars (lit "</" ++ (name ++ (lit ">" ++ r))) = 60 :: 47 :: (chars name ++ 62 :: chars r) := by
        have hgt : chars (lit ">" ++ r) = 62 :: chars r := chars_ascii (a := 62) (by decide) r
        rw [← hgt, ← hname.content.chars_append]
        exact (chars_ascii (a := 60) (by decide) _).trans (congrArg _ (chars_ascii (a := 47) (by decide) _))
      obtain ⟨l, s₁, hemits, hitems, hs₁, -⟩ :=
        emits_tagOpen createCharset hname hnarrow.1 hreadable hopen (.inr rfl) hs
      rw [hopen] at hs₁
      obtain ⟨s₂, hnull, hs₂⟩ := token_tagClose (defaultEnvironment createCharset) 0 hs₁
      have hlt : ∀ ch ∈ (chars (lit "</" ++ (name ++ (lit ">" ++ r)))).head?, ch = 60 := by
        rw [hclose]
        exact fun ch hch => (Option.some.inj hch).symm
      obtain ⟨l', s₃, hemits', hitems', hs₃⟩ := emits_nodes children hchildren hnarrow.2.2 hs₂ hlt
      rw [hclose] at hs₃
      obtain ⟨s₄, hend, hs₄⟩ := token_endTag (defaultEnvironment createCharset) 0 hs₃ hne hplain
      rw [hrecode] at hend
      refine ⟨_, s₄, ((hemits.append (.single hnull)).append hemits').append (.single hend), ?_, hs₄⟩
      simp only [List.filter_append, hitems, hitems', Node.items]
      rw [List.filter_cons_of_neg (by decide), List.filter_cons_of_pos rfl, List.filter_nil, List.append_nil]

theorem emits_nodes (nodes : List Node) (hnormal : NormalList nodes) (hnarrow : NarrowNamesList nodes) {s : Reader}
    {r : Bytes} (hs : Stands s .main mode (chars (Writer.visitAll nodes ++ r)))
    (hr : ∀ ch ∈ (chars r).head?, ch = 60) :
    ∃ l s', Emits (tokenNext (defaultEnvironment createCharset) 0) s l s' ∧
      l.filter isReported = itemsAll (readerRendering mode) nodes ∧ Stands s' .main mode (chars r) :=
  match nodes with
  | [] => ⟨[], s, .nil s, rfl, hs⟩
  | node :: nodes => by
    rw [NormalList] at hnormal
    rw [NarrowNamesList] at hnarrow
    obtain ⟨hnode, hadjacent, hrest⟩ := hnormal
    rw [Writer.visitAll, List.append_assoc] at hs
    have hnext : node.isText = true → ∀ ch ∈ (chars (Writer.visitAll nodes ++ r)).head?, ch = 60 := by
      intro htext
      cases nodes with
      | nil => exact hr
      | cons node' nodes =>
        rw [Writer.visitAll, List.append_assoc]
        exact head_visit (hadjacent htext node' rfl) _
    obtain ⟨l, s₁, hemits, hitems, hs₁⟩ := emits_node node hnode hnarrow.1 hs hnext
    obtain ⟨l', s₂, hemits', hitems', hs₂⟩ := emits_nodes nodes hrest hnarrow.2 hs₁ hr
    refine ⟨l ++ l', s₂, hemits.append hemits', ?_, hs₂⟩
    rw [List.filter_append, hitems, hitems', itemsAll]

end

/-! ### Opening a document -/

def opened (data : Bytes) (mode : WhitespaceMode) : Reader := (new ⟨data, 0⟩).setWhitespaceMode mode

theorem detect_le (buffer : Bytes) : (detect buffer).2 ≤ buffer.length := by
  unfold detect
  split
  · next p0 p1 rest =>
    split_ifs with hmark
    · cases rest with
      | nil => cases hmark.2.2
      | cons b rest => exact Nat.le_add_left _ _
    · exact Nat.le_add_left _ _
    · exact Nat.le_add_left _ _
    · exact Nat.zero_le _
    · exact Nat.zero_le _
    · exact Nat.zero_le _
  · exact Nat.zero_le _

theorem opened_ahead (data : Bytes) (mode : WhitespaceMode) :
    (opened data mode).input.ahead =
      decode (detect (data.take Input.bufferSize)).1 none (data.drop (detect (data.take Input.bufferSize)).2) := by
  have hbuffer : data.take Input.bufferSize ++ data.drop (0 + (data.take Input.bufferSize).length) = data := by
    rw [Nat.zero_add, List.length_take]
    rcases Nat.le_total Input.bufferSize data.length with hle | hle
    · rw [Nat.min_eq_left hle, List.take_append_drop]
    · rw [Nat.min_eq_right hle, List.take_of_length_le hle, List.drop_length, List.append_nil]
  have hrest : (data.take Input.bufferSize).drop (detect (data.take Input.bufferSize)).2 ++
      data.drop (0 + (data.take Input.bufferSize).length) = data.drop (detect (data.take Input.bufferSize)).2 := by
    rw [← List.drop_append_of_le_length (detect_le _), hbuffer]
  rw [← hrest]
  exact readNextChar_ahead _

/-- The UTF-8 byte order mark. -/
def mark : Bytes := [0xEF, 0xBB, 0xBF]

/-- Bytes that do not occur in 16-bit encodings, as far as these are detected. -/
def Clean (data : Bytes) : Prop := ∀ b ∈ data, b ≠ 0 ∧ b ≠ 0xFE ∧ b ≠ 0xFF

instance : DecidablePred Clean := fun data => List.decidableBAll _ data

theorem detect_clean {data : Bytes} (h : Clean data) :
    detect (data.take Input.bufferSize) = (.utf8, if mark <+: data then 3 else 0) := by
  match data with
  | [] => rfl
  | [a] =>
    have hmark : ¬mark <+: [a] := fun h => absurd h.length_le (by simp [mark])
    rw [if_neg hmark]
    rfl
  | a :: b :: rest =>
    obtain ⟨ha, hrest⟩ := List.forall_mem_cons.mp h
    obtain ⟨hb, -⟩ := List.forall_mem_cons.mp hrest
    have hmark : mark <+: a :: b :: rest ↔ a = 0xEF ∧ b = 0xBB ∧ (rest.take (Input.bufferSize - 2)).head? = some 0xBF := by
      cases rest with
      | nil => simp [mark, List.cons_prefix_cons]
      | cons c rest =>
        simp only [mark, List.cons_prefix_cons, List.nil_prefix, and_true, Input.bufferSize, Nat.reduceSub, List.take_succ_cons,
          List.head?_cons, Option.some.injEq]
        exact ⟨fun h => ⟨h.1.symm, h.2.1.symm, h.2.2.symm⟩, fun h => ⟨h.1.symm, h.2.1.symm, h.2.2.symm⟩⟩
    have htake : (a :: b :: rest).take Input.bufferSize = a :: b :: rest.take (Input.bufferSize - 2) := rfl
    rw [htake, detect]
    simp only [← hmark, ha, hb, ne_eq, not_false_eq_true, and_false, and_true, if_false]
    split_ifs <;> rfl

theorem clean_append {s t : Bytes} (hs : Clean s) (ht : Clean t) : Clean (s ++ t) := List.forall_mem_append.mpr ⟨hs, ht⟩

theorem clean_content {v : Bytes} (hv : Content v) : Clean v := by
  obtain ⟨text, htext, rfl⟩ := hv
  intro b hb
  obtain ⟨ch, hch, hmem⟩ := List.mem_flatMap.mp hb
  obtain ⟨hpos, hle⟩ := htext ch hch
  simp only [ne_eq, ← UInt8.toNat_inj, UInt8.reduceToNat]
  rcases append_bytes hle hmem with ⟨hlt, rfl⟩ | ⟨-, hge, hlt⟩
  · rw [UInt32.toNat_toUInt8]
    omega
  · omega

theorem clean_attributes (h : NormalAttributes attributes) :
    Clean (Writer.writeAttributes attributes) := by
  intro b hb
  obtain ⟨a, ha, hmem⟩ := List.mem_flatMap.mp hb
  have hname := clean_content (h.names a ha).content
  have hvalue := clean_content (h.values a ha).escape
  exact clean_append (clean_append (clean_append (clean_append (by decide) hname) (by decide))
    hvalue) (by decide) b hmem

mutual

theorem clean_visit (node : Node) (h : node.Normal) : Clean (Writer.visit node) :=
  match node with
  | .text text => by
    rw [Node.Normal] at h
    rw [Writer.visit]
    exact clean_content h.1.escape
  | .pi name attributes => by
    rw [Node.Normal] at h
    rw [Writer.visit]
    exact clean_append (clean_append (clean_append (by decide) (clean_content h.1.content))
      (clean_attributes h.2.1)) (by decide)
  | .tag name attributes children => by
    rw [Node.Normal] at h
    have hname := clean_content h.1.content
    have hchildren := clean_visitAll children h.2.2
    rw [Writer.visit]
    refine clean_append (clean_append (clean_append (by decide) hname) (clean_attributes h.2.1)) ?_
    split_ifs
    · decide
    · exact clean_append (clean_append (clean_append (clean_append (by decide) hchildren)
        (by decide)) hname) (by decide)

theorem clean_visitAll (nodes : List Node) (h : NormalList nodes) : Clean (Writer.visitAll nodes) :=
  match nodes with
  | [] => nofun
  | node :: nodes => by
    rw [NormalList] at h
    rw [Writer.visitAll]
    exact clean_append (clean_visit node h.1) (clean_visitAll nodes h.2.2)

end

/-! ### A text that begins with a byte order mark -/

theorem mark_prefix_append {ch : Unichar} (hch : ch.toNat ≤ 0x10FFFF) (r : Bytes)
    (h : mark <+: Utf8.append 0 ch ++ r) : ch = 0xFEFF := by
  rcases append_cases ch hch with ⟨hlt, happend⟩ | ⟨hge, hle, a, b, happend, ha, hb⟩ |
      ⟨hge, hle, a, b, c, happend, ha, hb, hc⟩ | ⟨hge, a, b, c, d, happend, ha, ha', hb, hc, hd⟩
  all_goals
    rw [happend] at h
    simp only [mark, List.cons_append, List.nil_append, List.cons_prefix_cons, ← UInt8.toNat_inj, UInt8.reduceToNat,
      UInt32.toNat_toUInt8] at h
    apply UInt32.toNat_inj.mp
    simp only [UInt32.reduceToNat]
    omega

theorem mark_prefix_escape {text : Bytes} (htext : Content text) (hne : text ≠ []) (r : Bytes) :
    (mark <+: escape text ++ r ↔ mark <+: text) ∧
      (mark <+: text → ∃ text', text = mark ++ text' ∧ escape text = mark ++ escape text' ∧ Content text') := by
  obtain ⟨runes, hrunes, rfl⟩ := htext
  cases runes with
  | nil => exact absurd rfl hne
  | cons ch runes =>
    obtain ⟨hch, hrest⟩ := List.forall_mem_cons.mp hrunes
    by_cases hmark : ch = 0xFEFF
    · subst hmark
      have happend : Utf8.append 0 0xFEFF = mark := by decide
      have hescape : escape mark = mark := by decide
      rw [appendAll_cons, happend, escape_appendBytes, hescape]
      refine ⟨⟨fun _ => List.prefix_append _ _, fun _ => ?_⟩, fun _ => ⟨_, rfl, rfl, runes, hrest, rfl⟩⟩
      rw [List.append_assoc]
      exact List.prefix_append _ _
    · have hnot : ∀ r, ¬mark <+: Utf8.append 0 ch ++ r := fun r h => hmark (mark_prefix_append hch.2 r h)
      have hnot' : ∀ r, ¬mark <+: escape (Utf8.append 0 ch) ++ r := by
        intro r h
        by_cases hspecial : ch = 60 ∨ ch = 62 ∨ ch = 38 ∨ ch = 34
        · rcases hspecial with rfl | rfl | rfl | rfl <;> exact absurd (List.cons_prefix_cons.mp h).1 (by decide)
        · rw [escape_append_of_not hch.2 hspecial] at h
          exact hnot r h
      rw [appendAll_cons, escape_appendBytes, List.append_assoc]
      exact ⟨⟨fun h => absurd h (hnot' _), fun h => absurd h (hnot _)⟩, fun h => absurd h (hnot _)⟩

/-- The nodes as the reader finds them: a byte order mark at the beginning of a text is not seen. -/
def stripMark : List Node → List Node
  | .text text :: nodes =>
    if mark <+: text then
      if text = mark then nodes else .text (text.drop 3) :: nodes
    else .text text :: nodes
  | nodes => nodes

theorem stripMark_text {text' : Bytes} (nodes : List Node) :
    stripMark (.text (mark ++ text') :: nodes) = if text' = [] then nodes else .text text' :: nodes := by
  rw [stripMark, if_pos (List.prefix_append _ _)]
  by_cases hempty : text' = []
  · subst hempty
    rfl
  · rw [if_neg hempty, if_neg fun h => hempty (List.append_cancel_left (h.trans (List.append_nil mark).symm))]
    rfl

theorem opened_nodes {nodes : List Node} (h : NormalList nodes) (mode : WhitespaceMode) :
    (opened (Writer.visitAll nodes) mode).input.ahead = chars (Writer.visitAll (stripMark nodes)) ∧
      NormalList (stripMark nodes) ∧ (NarrowNamesList nodes → NarrowNamesList (stripMark nodes)) := by
  rw [opened_ahead, detect_clean (clean_visitAll nodes h)]
  show chars _ = _ ∧ _
  have hother : ¬mark <+: Writer.visitAll nodes → stripMark nodes = nodes →
      chars ((Writer.visitAll nodes).drop (if mark <+: Writer.visitAll nodes then 3 else 0)) =
        chars (Writer.visitAll (stripMark nodes)) ∧ NormalList (stripMark nodes) ∧
        (NarrowNamesList nodes → NarrowNamesList (stripMark nodes)) := by
    intro hnot hstrip
    rw [hstrip, if_neg hnot]
    exact ⟨rfl, h, id⟩
  match nodes with
  | [] => exact hother (by decide) rfl
  | .pi name attributes :: nodes =>
    refine hother (fun hmark => ?_) rfl
    rw [Writer.visitAll, Writer.visit] at hmark
    exact absurd (List.cons_prefix_cons.mp hmark).1 (by decide)
  | .tag name attributes children :: nodes =>
    refine hother (fun hmark => ?_) rfl
    rw [Writer.visitAll, Writer.visit] at hmark
    exact absurd (List.cons_prefix_cons.mp hmark).1 (by decide)
  | .text text :: nodes =>
    have hvisit : Writer.visitAll (.text text :: nodes) = escape text ++ Writer.visitAll nodes := by
      rw [Writer.visitAll, Writer.visit]
    have hnormal := h
    rw [NormalList, Node.Normal] at hnormal
    obtain ⟨⟨htext, hne⟩, hadjacent, hrest⟩ := hnormal
    obtain ⟨hiff, hsplit⟩ := mark_prefix_escape htext hne (Writer.visitAll nodes)
    rw [hvisit] at hother ⊢
    by_cases hmark : mark <+: text
    · obtain ⟨text', rfl, hescape, htext'⟩ := hsplit hmark
      rw [if_pos (hiff.mpr hmark), hescape, List.append_assoc, stripMark_text]
      have hdrop : (mark ++ (escape text' ++ Writer.visitAll nodes)).drop 3 = escape text' ++ Writer.visitAll nodes := rfl
      rw [hdrop]
      split_ifs with hempty
      · subst hempty
        exact ⟨rfl, hrest, fun hnarrow => by rw [NarrowNamesList] at hnarrow; exact hnarrow.2⟩
      · refine ⟨by rw [Writer.visitAll, Writer.visit], ?_, ?_⟩
        · rw [NormalList, Node.Normal]
          exact ⟨⟨htext', hempty⟩, hadjacent, hrest⟩
        · intro hnarrow
          rw [NarrowNamesList] at hnarrow ⊢
          exact hnarrow
    · exact hother (fun hprefix => hmark (hiff.mp hprefix)) (by rw [stripMark, if_neg hmark])

variable (mode) in
/-- **Reading documents.** What the reader reports for nodes that were written. -/
theorem reads_visitAll {nodes : List Node} (h : NormalList nodes) (hnarrow : NarrowNamesList nodes) :
    ∃ fuel, ((toBaseReader (defaultEnvironment createCharset) fuel).Reads (opened (Writer.visitAll nodes) mode)
      (itemsAll (readerRendering mode) (stripMark nodes))) := by
  obtain ⟨hahead, hnormal', hnarrow'⟩ := opened_nodes h mode
  have hs : Stands (opened (Writer.visitAll nodes) mode) .main mode (chars (Writer.visitAll (stripMark nodes) ++ [])) :=
    ⟨new_settled _ _, rfl, rfl, by rw [hahead, List.append_nil]⟩
  obtain ⟨l, s', hemits, hitems, hs'⟩ := emits_nodes createCharset _ hnormal' (hnarrow' hnarrow) hs (by rw [chars_nil]; nofun)
  rw [chars_nil] at hs'
  have hall := emits_next (hemits.append (.single (token_eof (defaultEnvironment createCharset) 0 hs'))) rfl
    (Nat.le_of_eq (Nat.zero_add _))
  rw [List.filter_append, hitems] at hall
  exact ⟨_, eof_not_mem_itemsAll _ _, _, hall⟩

end Reader

end Afl.Io.Xml
