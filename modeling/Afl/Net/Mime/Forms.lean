import Afl.Net.Http.Packets
import Afl.Net.Mime.Builder
import Afl.Net.Mime.Parser
import Mathlib.Data.Bool.AllAny

/-!
# Forms

The fields of a form that `MimeBuilder` writes are those that `MimeParser` reads.
-/

namespace Afl.Net

open Charset

/-! ### Chunks -/

theorem HeaderParser.handleData_rest (p : HeaderParser) (bytes : Bytes)
    (h : (p.handleData bytes).1.state ≠ .final) : (p.handleData bytes).2 = [] := by
  induction bytes generalizing p with
  | nil => rfl
  | cons ch bytes ih =>
    by_cases hp : p.state = .final
    · rw [HeaderParser.handleData_final hp] at h
      exact absurd hp h
    · rw [HeaderParser.handleData_cons hp] at h ⊢
      exact ih _ h

variable {p : MimeParser}

namespace MimeParser

variable (createCharset : CharsetFactory)

/-- While the header is not complete, its parser is not, either. -/
def InHeader (p : MimeParser) : Prop := p.state = .header → p.headerParser.state ≠ .final

theorem handleData_incomplete (hp : p.state = .header) {data : Bytes}
    (h : (p.headerParser.handleData data).1.state ≠ .final) :
    p.handleData createCharset data = { p with headerParser := (p.headerParser.handleData data).1 } := by
  rw [handleData_header createCharset hp, takeHeader_incomplete createCharset h, addData]
  dsimp only
  rw [hp]

theorem inHeader_handleData (p : MimeParser) (data : Bytes) : (p.handleData createCharset data).InHeader := by
  by_cases hheader : p.state = .header
  · by_cases hfinal : (p.headerParser.handleData data).1.state = .final
    · intro hstate
      rw [handleData_header createCharset hheader, addData_state] at hstate
      exact absurd hstate (takeHeader_state createCharset hfinal)
    · rw [handleData_incomplete createCharset hheader hfinal]
      exact fun _ => hfinal
  · intro hstate
    rw [handleData_body createCharset hheader, addData_state] at hstate
    exact absurd hstate hheader

theorem handleData_nil (hp : p.InHeader) : p.handleData createCharset [] = p := by
  by_cases hheader : p.state = .header
  · exact handleData_incomplete createCharset hheader (hp hheader)
  · obtain ⟨f, hf⟩ := addData_eq hheader
    rw [handleData_body createCharset hheader, hf p rfl]
    rfl

/-- **Chunks do not matter.** -/
theorem handleData_append (p : MimeParser) (a b : Bytes) :
    p.handleData createCharset (a ++ b) = (p.handleData createCharset a).handleData createCharset b := by
  by_cases hheader : p.state = .header
  · have happend := HeaderParser.resumable.append (s := p.headerParser) trivial a b
    by_cases hfinal : (p.headerParser.handleData a).1.state = .final
    · have hstate := takeHeader_state createCharset (p := p) hfinal
      rw [handleData_header createCharset hheader, handleData_header createCharset hheader a, happend,
        HeaderParser.handleData_final hfinal, handleData_body createCharset (by rwa [addData_state]), addData_append]
    · have hnil := p.headerParser.handleData_rest a hfinal
      have hstate : { p with headerParser := (p.headerParser.handleData a).1 }.state = .header := hheader
      rw [handleData_header createCharset hheader, handleData_incomplete createCharset hheader hfinal,
        handleData_header createCharset hstate, happend, hnil]
      rfl
  · rw [handleData_body createCharset hheader, handleData_body createCharset hheader, addData_append,
      handleData_body createCharset (by rwa [addData_state])]

theorem feed_eq (hp : p.InHeader) (pieces : List Bytes) :
    pieces.foldl (handleData createCharset) p = p.handleData createCharset pieces.flatten := by
  induction pieces generalizing p with
  | nil => exact (handleData_nil createCharset hp).symm
  | cons piece pieces ih =>
    rw [List.foldl_cons, ih (inHeader_handleData createCharset p piece), List.flatten_cons, handleData_append]

end MimeParser

/-! ### Entities -/

theorem BodyVec.toList_addBody (v : BodyVec) (str : Bytes) :
    (v.addBody str).toList = v.lines ++ (str.splitOn 10).modifyHead (v.last ++ ·) := by
  induction str generalizing v with
  | nil => simp [addBody, toList]
  | cons c str ih =>
    have hstep : v.addBody (c :: str) = (v.addChar c).addBody str := rfl
    rw [hstep, ih, List.splitOn_cons_eq_if_modifyHead, addChar]
    obtain ⟨first, rest, hsplit⟩ := List.exists_cons_of_ne_nil (List.splitOn_ne_nil 10 str)
    by_cases hc : c = 10
    · simp [hc, newLine, hsplit]
    · simp [hc, hsplit]

def stripCR (s : Bytes) : Bytes := s.filter fun c => c ≠ 13

theorem stripCR_cr (s : Bytes) : stripCR (13 :: s) = stripCR s := rfl

theorem stripCR_cons {c : UInt8} (hc : c ≠ 13) (s : Bytes) : stripCR (c :: s) = c :: stripCR s :=
  List.filter_cons_of_pos (p := fun b : UInt8 => decide (b ≠ 13)) (decide_eq_true hc)

theorem stripCR_of_not_mem {s : Bytes} (h : 13 ∉ s) : stripCR s = s :=
  List.filter_eq_self.2 fun _ hc => decide_eq_true fun heq => h (heq ▸ hc)

theorem stripCR_append (s t : Bytes) : stripCR (s ++ t) = stripCR s ++ stripCR t := List.filter_append ..

theorem MimeParser.foldl_addPlain (p : MimeParser) (data : Bytes) :
    data.foldl addPlain p = { p with body := p.body.addBody (stripCR data) } := by
  induction data generalizing p with
  | nil => rfl
  | cons c data ih =>
    rw [List.foldl_cons, ih, addPlain]
    by_cases hc : c = 13
    · rw [if_pos hc, hc, stripCR_cr]
    · rw [if_neg hc, stripCR_cons hc]
      rfl

/-- A text that is exactly the header of an entity. -/
def IsHeader (text : Bytes) (table : HeaderTable) : Prop :=
  HeaderParser.create.handleData text = (⟨table, false, false, [], [], .final⟩, [])

variable {table : HeaderTable}

theorem isHeader_writeHeaders (h : ∀ f ∈ table, Http.Writable f) :
    IsHeader (table.writeHeaders ++ [13, 10]) table := by
  have hwhole := Http.handleData_writeHeaders h []
  rw [List.append_nil] at hwhole
  exact hwhole

theorem HeaderParser.handleData_stripCR {p : HeaderParser} {text : Bytes} (h : (p.handleData text).2 = []) :
    p.handleData (stripCR text) = p.handleData text := by
  induction text generalizing p with
  | nil => rfl
  | cons c text ih =>
    by_cases hp : p.state = .final
    · rw [handleData_final hp] at h
      cases h
    · rw [handleData_cons hp] at h ⊢
      by_cases hc : c = 13
      · have hstep : p.step c = p := by rw [hc]; rfl
        rw [hstep] at h ⊢
        rw [hc, stripCR_cr]
        exact ih h
      · rw [stripCR_cons hc, handleData_cons hp]
        exact ih h

theorem IsHeader.stripCR {text : Bytes} (h : IsHeader text table) :
    IsHeader (stripCR text) table := by
  rw [IsHeader] at h ⊢
  rw [HeaderParser.handleData_stripCR (by rw [h]), h]

namespace MimeParser

variable (createCharset : CharsetFactory)

def entity (table : HeaderTable) (body : Bytes) : MimeParser :=
  ⟨BodyVec.empty.addBody (stripCR body), [], .plainBody, true, ⟨table, false, false, [], [], .final⟩⟩

theorem takeHeader_plain
    (hplain : HeaderTable.get ((entity table []).getHeaders createCharset) (lit "Content-Transfer-Encoding") = none)
    (headerParser : HeaderParser) :
    { create with headerParser := headerParser }.takeHeader createCharset ⟨table, false, false, [], [], .final⟩ =
      entity table [] := by
  have hstate : bodyState createCharset { create with headerParser := ⟨table, false, false, [], [], .final⟩ } =
      .plainBody := by
    have hheaders : getHeaders createCharset { create with headerParser := ⟨table, false, false, [], [], .final⟩ } =
        (entity table []).getHeaders createCharset := rfl
    rw [bodyState, hheaders, hplain]
  rw [takeHeader]
  dsimp only
  rw [if_pos rfl, hstate]
  rfl

theorem handleData_entity {text : Bytes} (h : IsHeader text table)
    (hplain : HeaderTable.get ((entity table []).getHeaders createCharset) (lit "Content-Transfer-Encoding") = none)
    (body : Bytes) : create.handleData createCharset (text ++ body) = entity table body := by
  have hparse : HeaderParser.create.handleData (text ++ body) = (⟨table, false, false, [], [], .final⟩, body) := by
    rw [HeaderParser.resumable.append trivial, show HeaderParser.create.handleData text = _ from h]
    dsimp only
    rw [HeaderParser.handleData_final (by rfl), List.nil_append]
  have hheader := takeHeader_plain createCharset hplain .create
  rw [handleData_header createCharset rfl, show create.headerParser = HeaderParser.create from rfl, hparse,
    show create.takeHeader createCharset _ = _ from hheader, addData]
  dsimp only [entity]
  rw [foldl_addPlain]
  rfl

end MimeParser

/-! ### Names of fields -/

/-- The names that survive: there are no line ends and no encoded words in them, and no white space around them. -/
structure FieldName (name : Bytes) : Prop where
  chars : ∀ c ∈ name, c ≠ 13 ∧ c ≠ 10 ∧ c ≠ 0
  noWord : ¬[61, 63] <:+: name
  start : ∀ c ∈ name.head?, charIsSpace c = false
  stop : ∀ c ∈ name.getLast?, charIsSpace c = false

theorem strTrim_eq_self {s : Bytes} (hstart : ∀ c ∈ s.head?, charIsSpace c = false)
    (hstop : ∀ c ∈ s.getLast?, charIsSpace c = false) : strTrim s = s := by
  have hdrop : ∀ t : Bytes, (∀ c ∈ t.head?, charIsSpace c = false) → t.dropWhile charIsSpace = t := by
    intro t ht
    cases t with
    | nil => rfl
    | cons c t =>
      have hc := ht c rfl
      rw [List.dropWhile_cons_of_neg (by rw [hc]; decide)]
  have hright : strRTrim s = s := by
    rw [strRTrim, hdrop, List.reverse_reverse]
    rw [List.head?_reverse]
    exact hstop
  rw [strTrim, hright, strLTrim, hdrop s hstart]

variable {name : Bytes}

theorem FieldName.cutAt (h : FieldName name) : cutAt 61 63 name = none :=
  cutAt_eq_none_iff.2 h.noWord

open MimeBuilder (quoteFieldName)

theorem quoteFieldName_cons (c : UInt8) (name : Bytes) :
    quoteFieldName (c :: name) = (if c = 34 ∨ c = 92 then [92, c] else [c]) ++ quoteFieldName name := rfl

theorem cutAt_quoteFieldName (h : cutAt 61 63 name = none) :
    cutAt 61 63 (quoteFieldName name ++ [34]) = none := by
  induction name with
  | nil => rfl
  | cons c name ih =>
    rw [cutAt_cons] at h
    have hrest := ih h.2
    rw [quoteFieldName_cons]
    split_ifs with hquoted
    · have hc : c ≠ 61 := by rcases hquoted with rfl | rfl <;> decide
      rw [List.append_assoc, List.cons_append, cutAt_cons, List.singleton_append, cutAt_cons]
      exact ⟨fun hpair => absurd hpair.1 (by decide), fun hpair => hc hpair.1, hrest⟩
    · rw [List.append_assoc, List.singleton_append, cutAt_cons]
      refine ⟨fun hpair => ?_, hrest⟩
      cases name with
      | nil => exact absurd hpair.2 (by decide)
      | cons d name =>
        rw [quoteFieldName_cons] at hpair
        split_ifs at hpair
        · exact absurd (Option.some.inj hpair.2) (by decide)
        · exact h.1 hpair

theorem extractPart_quoteFieldName (name : Bytes) :
    extractPart .default .dq (quoteFieldName name ++ [34]) = (name, []) := by
  induction name with
  | nil => rfl
  | cons c name ih =>
    rw [quoteFieldName_cons]
    split_ifs with hquoted
    · rw [List.append_assoc, List.cons_append, List.singleton_append, extractPart, if_pos rfl, extractPart, ih]
    · rw [not_or] at hquoted
      rw [List.append_assoc, List.singleton_append, extractPart, if_neg hquoted.2, if_neg hquoted.1, ih]

theorem getSecondaryValue_single {key value primary rest part name v : Bytes}
    (hprimary : extractPart .default .raw value = (primary, rest)) (hrest : rest ≠ [])
    (hpart : extractPart .default .raw rest = (part, [])) (hsecondary : secondaryValue part = ⟨name, v⟩) :
    (HeaderField.mk key value).getSecondaryValue name .default = some v := by
  have hparts : parts .default rest = [part] := by rw [parts_cons hrest, hpart, parts_nil]
  have hvalues : (HeaderField.mk key value).enumerateSecondaryValues .default = [⟨name, v⟩] := by
    rw [HeaderField.enumerateSecondaryValues]
    dsimp only
    rw [if_neg nofun, hprimary, hparts, List.map_singleton, hsecondary]
  have hsame : decide (strCaseCompare name name = 0) = true := decide_eq_true (strCaseCompare_eq_zero.2 rfl)
  rw [HeaderField.getSecondaryValue, hvalues, List.find?_singleton]
  dsimp only
  rw [if_pos hsame, Option.map_some]

def disposition (name : Bytes) : Bytes := lit "form-data; name=\"" ++ quoteFieldName name ++ lit "\""

theorem disposition_eq (name : Bytes) :
    disposition name = lit "form-data; name=\"" ++ (quoteFieldName name ++ [34]) := List.append_assoc ..

theorem getSecondaryValue_disposition (h : FieldName name) (key : Bytes) :
    (HeaderField.mk key (disposition name)).getSecondaryValue (lit "name") .default = some name := by
  have hprimary : extractPart .default .raw (disposition name) =
      (lit "form-data", lit " name=\"" ++ (quoteFieldName name ++ [34])) := by
    rw [disposition_eq]
    rfl
  have hpart : extractPart .default .raw (lit " name=\"" ++ (quoteFieldName name ++ [34])) =
      (lit " name=" ++ name, []) := by
    have hopen : extractPart .default .raw (lit " name=\"" ++ (quoteFieldName name ++ [34])) =
        (lit " name=" ++ (extractPart .default .dq (quoteFieldName name ++ [34])).1,
          (extractPart .default .dq (quoteFieldName name ++ [34])).2) := rfl
    rw [hopen, extractPart_quoteFieldName]
  have hsecondary : secondaryValue (lit " name=" ++ name) = ⟨lit "name", name⟩ := by
    have hfind : (lit " name=" ++ name).findIdx? (· = 61) = some 5 := rfl
    have htake : (lit " name=" ++ name).take 5 = lit " name" := rfl
    have hdrop : (lit " name=" ++ name).drop (5 + 1) = name := rfl
    rw [secondaryValue, hfind]
    dsimp only
    rw [htake, hdrop, strTrim_eq_self h.start h.stop]
    rfl
  exact getSecondaryValue_single hprimary nofun hpart hsecondary

def formType (digits : Bytes) : Bytes := lit "multipart/form-data; boundary=" ++ digits

theorem extractPart_plain {s : Bytes} (h : ∀ c ∈ s, c ≠ 34 ∧ c ≠ 40 ∧ c ≠ 59) :
    extractPart .default .raw s = (s, []) := by
  induction s with
  | nil => rfl
  | cons c s ih =>
    rw [List.forall_mem_cons] at h
    rw [extractPart, if_neg fun hc => h.1.1 hc.1, if_neg fun hc => h.1.2.1 hc.1, if_neg h.1.2.2, ih h.2]

theorem Guess.charIsDigit (g : Guess) : ∀ c ∈ g.digits, charIsDigit c = true := fun c hc =>
  (charIsDigit_iff c).2 (g.isDigit c hc)

theorem charIsSpace_of_digit {c : UInt8} (hc : charIsDigit c = true) : charIsSpace c = false := by
  have hne : ∀ d : UInt8, charIsDigit d = false → c ≠ d := fun d hd => digit_ne hc hd
  simp [charIsSpace, hne 32 (by decide), hne 9 (by decide), hne 13 (by decide), hne 10 (by decide)]

theorem getSecondaryValue_formType (g : Guess) (key : Bytes) :
    (HeaderField.mk key (formType g.digits)).getSecondaryValue (lit "boundary") .default = some g.digits := by
  have hprimary : extractPart .default .raw (formType g.digits) =
      (lit "multipart/form-data", lit " boundary=" ++ g.digits) := rfl
  have hpart : extractPart .default .raw (lit " boundary=" ++ g.digits) = (lit " boundary=" ++ g.digits, []) := by
    apply extractPart_plain
    intro c hc
    rcases List.mem_append.1 hc with hc | hc
    · have hall : ∀ c ∈ lit " boundary=", c ≠ 34 ∧ c ≠ 40 ∧ c ≠ 59 := List.all_iff_forall_prop.mp (by decide)
      exact hall c hc
    · have hdigit := g.charIsDigit c hc
      exact ⟨digit_ne hdigit (by decide), digit_ne hdigit (by decide), digit_ne hdigit (by decide)⟩
  have hsecondary : secondaryValue (lit " boundary=" ++ g.digits) = ⟨lit "boundary", g.digits⟩ := by
    have hfind : (lit " boundary=" ++ g.digits).findIdx? (· = 61) = some 9 := rfl
    have htake : (lit " boundary=" ++ g.digits).take 9 = lit " boundary" := rfl
    have hdrop : (lit " boundary=" ++ g.digits).drop (9 + 1) = g.digits := rfl
    have htrim : strTrim g.digits = g.digits := strTrim_eq_self
      (fun c hc => charIsSpace_of_digit (g.charIsDigit c (List.mem_of_head? hc)))
      (fun c hc => charIsSpace_of_digit (g.charIsDigit c (List.mem_of_getLast? hc)))
    rw [secondaryValue, hfind]
    dsimp only
    rw [htake, hdrop, htrim]
    rfl
  exact getSecondaryValue_single hprimary nofun hpart hsecondary

/-! ### The headers of a form -/

theorem cutAt_append {a b : UInt8} {s t : Bytes} (hs : cutAt a b s = none) (ht : cutAt a b t = none)
    (hjoint : s.getLast? = some a → t.head? ≠ some b) : cutAt a b (s ++ t) = none := by
  induction s with
  | nil => exact ht
  | cons c s ih =>
    rw [cutAt_cons] at hs
    rw [List.cons_append, cutAt_cons]
    cases s with
    | nil =>
      exact ⟨fun hpair => hjoint (by rw [hpair.1]; rfl) hpair.2, ht⟩
    | cons d s =>
      refine ⟨hs.1, ih hs.2 fun hlast => hjoint ?_⟩
      rw [List.getLast?_cons_cons]
      exact hlast

theorem cutAt_of_not_mem {a b : UInt8} {s : Bytes} (h : a ∉ s) : cutAt a b s = none := by
  induction s with
  | nil => rfl
  | cons c s ih =>
    rw [List.mem_cons, not_or] at h
    exact cutAt_cons.2 ⟨fun hpair => h.1 hpair.1.symm, ih h.2⟩

theorem decodeHeader_disposition (createCharset : CharsetFactory) (h : FieldName name) :
    decodeHeader createCharset (disposition name) = disposition name := by
  apply decodeHeader_plain
  rw [disposition_eq]
  exact cutAt_append (by decide) (cutAt_quoteFieldName h.cutAt) fun hlast => absurd hlast (by decide)

theorem decodeHeader_formType (createCharset : CharsetFactory) (g : Guess) :
    decodeHeader createCharset (formType g.digits) = formType g.digits := by
  have hdigits : ∀ d : UInt8, charIsDigit d = false → d ∉ g.digits := fun d hd hmem =>
    digit_ne (g.charIsDigit d hmem) hd rfl
  apply decodeHeader_plain
  refine cutAt_append (by decide) (cutAt_of_not_mem (hdigits 61 (by decide))) fun _ hhead => ?_
  exact hdigits 63 (by decide) (List.mem_of_head? hhead)

/-! ### The text of a form -/

variable {tab : HeaderTable}

namespace MimeBuilder

/-- The builder between two parts. -/
structure AtBoundary (b : MimeBuilder) : Prop where
  last : (b.content.getLast?).map Element.type = some .boundaryElement
  accumulator : b.base64Accumulator = .empty
  pending : b.pendingCRLF = false
  state : b.state = .header

variable {b : MimeBuilder}

theorem AtBoundary.addBoundary (h : b.AtBoundary) : b.addBoundary = b := by
  rw [MimeBuilder.addBoundary, if_pos h.last]

def fieldHeader (name : Bytes) : Bytes := lit "Content-Disposition" ++ [58, 32] ++ disposition name ++ CRLF

def fieldElements (f : HeaderField) : List Element :=
  text (fieldHeader f.name) :: text CRLF :: (rawPieces f.value).map text ++ [text CRLF, ⟨[], .boundaryElement⟩]

theorem getLast?_texts {content : List Element} (texts : List Bytes)
    (h : (content.getLast?).map Element.type = some .textElement) :
    ((content ++ texts.map text).getLast?).map Element.type = some .textElement := by
  rw [List.getLast?_append, List.getLast?_map]
  cases texts.getLast? with
  | none => exact h
  | some t => rfl

theorem AtBoundary.addFormField (h : b.AtBoundary) (name : Bytes) :
    b.addFormField name = { b with content := b.content ++ [text (fieldHeader name)] } := by
  rw [MimeBuilder.addFormField, h.addBoundary]
  rfl

theorem AtBoundary.addFormFieldValue (h : b.AtBoundary) (f : HeaderField) :
    b.addFormFieldValue f.name f.value = { b with content := b.content ++ fieldElements f } := by
  have hraw : (b.addFormField f.name).addRawData f.value =
      { b with
        content := b.content ++ [text (fieldHeader f.name), text CRLF] ++ (rawPieces f.value).map text
        pendingCRLF := true
        state := .body } := by
    rw [h.addFormField, addRawData, pushAll_eq, flushHeaderAndStartBody]
    dsimp only
    rw [h.state]
    dsimp only [push]
    rw [List.append_assoc b.content]
    rfl
  have hlast : ((b.content ++ [text (fieldHeader f.name), text CRLF] ++ (rawPieces f.value).map text).getLast?).map
      Element.type = some .textElement := getLast?_texts _ (by rw [List.getLast?_append]; rfl)
  rw [MimeBuilder.addFormFieldValue, hraw, MimeBuilder.addBoundary]
  dsimp only
  rw [if_neg (by rw [hlast]; decide), flushHeaderAndStartBody]
  dsimp only
  rw [flushBase64, flushBytes]
  dsimp only
  rw [h.accumulator, if_neg (show ¬Base64Accumulator.empty.bytes ≠ [] from fun hne => hne rfl)]
  dsimp only
  rw [if_pos rfl, push]
  have hcontent : b.content ++ [text (fieldHeader f.name), text CRLF] ++ (rawPieces f.value).map text ++ [text CRLF] ++
      [⟨[], .boundaryElement⟩] = b.content ++ fieldElements f := by
    simp [fieldElements]
  dsimp only
  rw [show (⟨CRLF, .textElement⟩ : Element) = text CRLF from rfl, hcontent, ← h.pending, ← h.state]

theorem atBoundary_append (h : b.AtBoundary) (f : HeaderField) :
    { b with content := b.content ++ fieldElements f }.AtBoundary := by
  refine ⟨?_, h.accumulator, h.pending, h.state⟩
  dsimp only
  rw [fieldElements, List.getLast?_append, List.getLast?_append]
  rfl

theorem AtBoundary.addFormFields (h : b.AtBoundary) (tab : HeaderTable) :
    b.addFormFields tab = { b with content := b.content ++ tab.flatMap fieldElements } := by
  induction tab generalizing b with
  | nil => rw [List.flatMap_nil, List.append_nil]; rfl
  | cons f tab ih =>
    have hstep : b.addFormFields (f :: tab) = (b.addFormFieldValue f.name f.value).addFormFields tab := rfl
    rw [hstep, h.addFormFieldValue, ih (atBoundary_append h f), List.flatMap_cons]
    dsimp only
    rw [List.append_assoc]

theorem atBoundary_create {ctype : Bytes} (h : ctype ≠ []) :
    (create ctype).addBoundary =
        ⟨[⟨[], .contentTypeElement⟩, text CRLF, ⟨[], .boundaryElement⟩], ctype, .empty, false, .header⟩ ∧
      (create ctype).addBoundary.AtBoundary := by
  have hcreate : create ctype = ⟨[⟨[], .contentTypeElement⟩], ctype, .empty, false, .header⟩ := by
    rw [create, if_pos h]
  have hboundary : (create ctype).addBoundary =
      ⟨[⟨[], .contentTypeElement⟩, text CRLF, ⟨[], .boundaryElement⟩], ctype, .empty, false, .header⟩ := by
    rw [hcreate]
    rfl
  rw [hboundary]
  exact ⟨rfl, rfl, rfl, rfl, rfl⟩

theorem content_addFormFields {ctype : Bytes} (h : ctype ≠ []) (htab : tab ≠ []) :
    ((create ctype).addFormFields tab).contentType = ctype ∧
      ((create ctype).addFormFields tab).content =
        [⟨[], .contentTypeElement⟩, text CRLF, ⟨[], .boundaryElement⟩] ++ tab.flatMap fieldElements := by
  obtain ⟨hcreate, hat⟩ := atBoundary_create h
  have hfirst : (create ctype).addFormFields tab = (create ctype).addBoundary.addFormFields tab := by
    cases tab with
    | nil => exact absurd rfl htab
    | cons f tab =>
      have hfield : (create ctype).addFormFieldValue f.name f.value =
          (create ctype).addBoundary.addFormFieldValue f.name f.value := by
        rw [MimeBuilder.addFormFieldValue, MimeBuilder.addFormFieldValue, MimeBuilder.addFormField,
          MimeBuilder.addFormField, hat.addBoundary]
      rw [addFormFields, addFormFields, List.foldl_cons, List.foldl_cons, hfield]
  rw [hfirst, hat.addFormFields, hcreate]
  exact ⟨rfl, rfl⟩

theorem fillIn_texts (ctype boundary : Bytes) (texts : List Bytes) (rest : List Element) :
    fillIn ctype boundary (texts.map text ++ rest) = texts.map text ++ fillIn ctype boundary rest := by
  induction texts with
  | nil => rfl
  | cons t texts ih =>
    rw [List.map_cons, List.cons_append, fillIn, ih]
    rfl

def closing (boundary : Bytes) (tab : HeaderTable) : Bytes := if tab = [] then boundary ++ [45, 45] else boundary

def formBody (boundary : Bytes) : HeaderTable → Bytes
  | [] => []
  | f :: tab =>
    fieldHeader f.name ++ CRLF ++ f.value ++ CRLF ++ (closing boundary tab ++ CRLF) ++ formBody boundary tab

theorem any_boundary (tab : HeaderTable) :
    ((tab.flatMap fieldElements).any fun e => e.type = .boundaryElement) = decide (tab ≠ []) := by
  cases tab with
  | nil => rfl
  | cons f tab =>
    rw [List.flatMap_cons, List.any_append, fieldElements, List.any_append]
    simp

theorem flatMap_text (texts : List Bytes) : (texts.map text).flatMap (writeElement false) = texts.flatten := by
  rw [List.flatMap_map]
  exact List.flatMap_id'

theorem fillIn_fields (ctype boundary : Bytes) (tab : HeaderTable) :
    (fillIn ctype boundary (tab.flatMap fieldElements)).flatMap (writeElement false) = formBody boundary tab := by
  induction tab with
  | nil => rfl
  | cons f tab ih =>
    have helements : fieldElements f ++ tab.flatMap fieldElements =
        (fieldHeader f.name :: CRLF :: rawPieces f.value ++ [CRLF]).map text ++
          ⟨[], .boundaryElement⟩ :: tab.flatMap fieldElements := by
      simp [fieldElements]
    rw [List.flatMap_cons, helements, fillIn_texts, List.flatMap_append, flatMap_text, fillIn, List.flatMap_cons, ih,
      any_boundary]
    have hclosing : writeElement false ⟨if decide (tab ≠ []) = true then boundary ++ CRLF else boundary ++ [45, 45] ++ CRLF,
        .boundaryElement⟩ = closing boundary tab ++ CRLF := by
      rw [closing]
      cases tab with
      | nil => rfl
      | cons g tab => rfl
    rw [hclosing, formBody]
    simp [flatten_rawPieces]

theorem write_form (htab : tab ≠ []) :
    let b := (create (lit "multipart/form-data")).addFormFields tab
    let g := findBoundary b.content .first
    b.finish.1.write false =
      HeaderTable.writeHeaders [⟨lit "Content-Type", formType g.digits⟩] ++ [13, 10] ++
        (g.boundary ++ CRLF ++ formBody g.boundary tab) := by
  intro b g
  obtain ⟨hctype, hcontent⟩ := content_addFormFields (show lit "multipart/form-data" ≠ [] by decide) htab
  have hfinish : b.finish.1.write false =
      (fillIn b.contentType g.boundary b.content).flatMap (writeElement false) := rfl
  have hfirst : fillIn (lit "multipart/form-data") g.boundary
      ([⟨[], .contentTypeElement⟩, text CRLF, ⟨[], .boundaryElement⟩] ++ tab.flatMap fieldElements) =
      ⟨lit "Content-Type: " ++ lit "multipart/form-data" ++ lit "; boundary=" ++ g.digits ++ CRLF,
        .contentTypeElement⟩ :: text CRLF ::
        ⟨if (tab.flatMap fieldElements).any fun e => e.type = .boundaryElement then g.boundary ++ CRLF
          else g.boundary ++ [45, 45] ++ CRLF, .boundaryElement⟩ ::
        fillIn (lit "multipart/form-data") g.boundary (tab.flatMap fieldElements) := rfl
  rw [hfinish, show b.contentType = lit "multipart/form-data" from hctype, show b.content = _ from hcontent, hfirst,
    List.flatMap_cons, List.flatMap_cons, List.flatMap_cons, fillIn_fields, any_boundary,
    if_pos (decide_eq_true htab)]
  have hheader : HeaderTable.writeHeaders [⟨lit "Content-Type", formType g.digits⟩] =
      lit "Content-Type: " ++ lit "multipart/form-data" ++ lit "; boundary=" ++ g.digits ++ CRLF := by
    rw [HeaderTable.writeHeaders, List.flatMap_singleton]
    rfl
  rw [hheader]
  simp only [writeElement, Bool.false_and, Bool.false_eq_true, if_false, text, List.append_assoc]
  rfl

end MimeBuilder

/-! ### The lines of a form -/

open MimeBuilder

def fieldLine (name : Bytes) : Bytes := lit "Content-Disposition" ++ [58, 32] ++ disposition name

def formLines (boundary : Bytes) : HeaderTable → List Bytes
  | [] => [[]]
  | f :: tab => fieldLine f.name :: [] :: f.value.splitOn 10 ++ closing boundary tab :: formLines boundary tab

theorem mem_quoteFieldName {c : UInt8} (h : c ∈ quoteFieldName name) : c = 92 ∨ c ∈ name := by
  obtain ⟨d, hd, hc⟩ := List.mem_flatMap.1 h
  split_ifs at hc
  · rcases List.mem_cons.1 hc with rfl | hc
    · exact .inl rfl
    · exact .inr (List.mem_singleton.1 hc ▸ hd)
  · exact .inr (List.mem_singleton.1 hc ▸ hd)

theorem FieldName.disposition (h : FieldName name) : ∀ c ∈ disposition name, c ≠ 13 ∧ c ≠ 10 ∧ c ≠ 0 := by
  have hstart : ∀ c ∈ lit "form-data; name=\"", c ≠ 13 ∧ c ≠ 10 ∧ c ≠ 0 := List.all_iff_forall_prop.mp (by decide)
  intro c hc
  rw [disposition_eq, List.mem_append, List.mem_append] at hc
  rcases hc with hc | hc | hc
  · exact hstart c hc
  · rcases mem_quoteFieldName hc with rfl | hc
    · decide
    · exact h.chars c hc
  · rw [List.mem_singleton.1 hc]
    decide

theorem FieldName.fieldLine (h : FieldName name) : ∀ c ∈ fieldLine name, c ≠ 13 ∧ c ≠ 10 := by
  have hstart : ∀ c ∈ lit "Content-Disposition" ++ [58, 32], c ≠ 13 ∧ c ≠ 10 := List.all_iff_forall_prop.mp (by decide)
  intro c hc
  rcases List.mem_append.1 hc with hc | hc
  · exact hstart c hc
  · exact ⟨(h.disposition c hc).1, (h.disposition c hc).2.1⟩

variable {boundary : Bytes}

theorem closing_plain (h : ∀ c ∈ boundary, c ≠ 13 ∧ c ≠ 10) (tab : HeaderTable) :
    ∀ c ∈ closing boundary tab, c ≠ 13 ∧ c ≠ 10 := by
  rw [closing]
  split_ifs
  · intro c hc
    rcases List.mem_append.1 hc with hc | hc
    · exact h c hc
    · have hdashes : ∀ c ∈ [(45 : UInt8), 45], c ≠ 13 ∧ c ≠ 10 := List.all_iff_forall_prop.mp (by decide)
      exact hdashes c hc
  · exact h

theorem stripCR_line {line : Bytes} (h : ∀ c ∈ line, c ≠ 13 ∧ c ≠ 10) (rest : Bytes) :
    (stripCR (line ++ CRLF ++ rest)).splitOn 10 = line :: (stripCR rest).splitOn 10 := by
  have hcr : stripCR line = line := stripCR_of_not_mem fun hmem => (h 13 hmem).1 rfl
  have hstrip : stripCR (line ++ CRLF ++ rest) = line ++ 10 :: stripCR rest := by
    rw [stripCR_append, stripCR_append, hcr, List.append_assoc]
    rfl
  rw [hstrip, List.splitOn_append_cons_self_of_not_mem fun hmem => (h 10 hmem).2 rfl]

theorem splitOn_formBody (hboundary : ∀ c ∈ boundary, c ≠ 13 ∧ c ≠ 10)
    (hnames : ∀ f ∈ tab, FieldName f.name) (hvalues : ∀ f ∈ tab, 13 ∉ f.value) :
    (stripCR (formBody boundary tab)).splitOn 10 = formLines boundary tab := by
  induction tab with
  | nil => rfl
  | cons f tab ih =>
    rw [List.forall_mem_cons] at hnames hvalues
    have hbody : formBody boundary (f :: tab) = fieldLine f.name ++ CRLF ++ ([] ++ CRLF ++
        (f.value ++ (CRLF ++ (closing boundary tab ++ CRLF ++ formBody boundary tab)))) := by
      simp [formBody, fieldHeader, fieldLine]
    have hvalue : stripCR (f.value ++ (CRLF ++ (closing boundary tab ++ CRLF ++ formBody boundary tab))) =
        f.value ++ 10 :: stripCR (closing boundary tab ++ CRLF ++ formBody boundary tab) := by
      rw [stripCR_append, stripCR_of_not_mem hvalues.1]
      rfl
    rw [hbody, stripCR_line hnames.1.fieldLine, stripCR_line (fun c hc => absurd hc List.not_mem_nil), hvalue,
      List.splitOn_append_cons_self, stripCR_line (closing_plain hboundary tab), ih hnames.2 hvalues.2, formLines]
    rfl

/-! ### Finding the parts -/

namespace MimeParser

theorem findNextBoundary_append {boundary line : Bytes} {part rest : List Bytes}
    (hpart : ∀ l ∈ part, isBoundaryLine boundary l = false) (hline : isBoundaryLine boundary line = true) :
    findNextBoundary boundary (part ++ line :: rest) = some (part, rest) := by
  induction part with
  | nil => rw [List.nil_append, findNextBoundary, if_pos hline]
  | cons l part ih =>
    rw [List.forall_mem_cons] at hpart
    rw [List.cons_append, findNextBoundary, if_neg (by rw [hpart.1]; decide), ih hpart.2, Option.map_some]

theorem partLines_of_found {lines part rest : List Bytes} (h : findNextBoundary boundary lines = some (part, rest)) :
    partLines boundary lines = part :: partLines boundary rest := by
  rw [partLines]
  split
  · next hnone =>
    rw [h] at hnone
    cases hnone
  · next hfound =>
    rw [h] at hfound
    cases hfound
    rfl

theorem isBoundaryLine_self (boundary : Bytes) : isBoundaryLine boundary boundary = true := by
  rw [isBoundaryLine, List.drop_length, Bool.and_eq_true]
  exact ⟨List.isPrefixOf_iff_prefix.2 (List.prefix_refl _), rfl⟩

theorem isBoundaryLine_closing (boundary : Bytes) (tab : HeaderTable) :
    isBoundaryLine boundary (closing boundary tab) = true := by
  rw [closing]
  split_ifs
  · rw [isBoundaryLine, List.drop_left, Bool.and_eq_true]
    exact ⟨List.isPrefixOf_iff_prefix.2 (List.prefix_append _ _), by decide⟩
  · exact isBoundaryLine_self boundary

theorem isBoundaryLine_eq_false {boundary line : Bytes} (h : ¬boundary <+: line) :
    isBoundaryLine boundary line = false := by
  have hstart : boundary.isPrefixOf line = false := by
    rw [Bool.eq_false_iff, ne_eq, List.isPrefixOf_iff_prefix]
    exact h
  rw [isBoundaryLine, hstart, Bool.false_and]

def fieldLines (f : HeaderField) : List Bytes := fieldLine f.name :: [] :: f.value.splitOn 10

theorem partLines_formLines (hempty : isBoundaryLine boundary [] = false)
    (hlines : ∀ f ∈ tab, ∀ l ∈ fieldLines f, isBoundaryLine boundary l = false) :
    partLines boundary (formLines boundary tab) = tab.map fieldLines := by
  induction tab with
  | nil =>
    rw [formLines, partLines]
    split
    · rfl
    · next hfound =>
      rw [findNextBoundary, if_neg (by rw [hempty]; decide)] at hfound
      cases hfound
  | cons f tab ih =>
    rw [List.forall_mem_cons] at hlines
    have hfound : findNextBoundary boundary (formLines boundary (f :: tab)) =
        some (fieldLines f, formLines boundary tab) :=
      findNextBoundary_append hlines.1 (isBoundaryLine_closing boundary tab)
    rw [partLines_of_found hfound, ih hlines.2, List.map_cons]

end MimeParser

/-! ### The boundary and the values -/

theorem rawPieces_line {a : Bytes} (ha : 10 ∉ a) (b : Bytes) : rawPieces (a ++ 10 :: b) = (a ++ [10]) :: rawPieces b := by
  induction a with
  | nil => rfl
  | cons c a ih =>
    rw [List.mem_cons, not_or] at ha
    rw [List.cons_append, rawPieces, if_neg fun hc => ha.1 hc.symm, ih ha.2]
    rfl

theorem rawPieces_last {a : Bytes} (ha : 10 ∉ a) (hne : a ≠ []) : rawPieces a = [a] := by
  induction a with
  | nil => exact absurd rfl hne
  | cons c a ih =>
    rw [List.mem_cons, not_or] at ha
    rw [rawPieces, if_neg fun hc => ha.1 hc.symm]
    cases a with
    | nil => rfl
    | cons d a => rw [ih ha.2 (List.cons_ne_nil d a)]

theorem exists_rawPiece (data : Bytes) : ∀ l ∈ data.splitOn 10, l ≠ [] → ∃ piece ∈ rawPieces data, l <+: piece := by
  induction hn : data.length using Nat.strong_induction_on generalizing data with
  | _ n ih =>
    by_cases hmem : 10 ∈ data
    · obtain ⟨a, b, ha, hdata⟩ := List.eq_append_cons_of_mem hmem
      have hless : b.length < n := by
        rw [← hn, ha, List.length_append, List.length_cons]
        omega
      rw [ha, List.splitOn_append_cons_self_of_not_mem hdata, rawPieces_line hdata]
      intro l hl hne
      rcases List.mem_cons.1 hl with rfl | hl
      · exact ⟨l ++ [10], List.mem_cons_self, List.prefix_append _ _⟩
      · obtain ⟨piece, hpiece, hstart⟩ := ih b.length hless b rfl l hl hne
        exact ⟨piece, List.mem_cons_of_mem _ hpiece, hstart⟩
    · rw [List.splitOn_eq_singleton hmem]
      intro l hl hne
      rw [List.mem_singleton] at hl
      rw [hl] at hne ⊢
      exact ⟨data, by rw [rawPieces_last hmem hne]; exact List.mem_singleton_self _, List.prefix_refl _⟩

theorem not_prefix_nil {g : Guess} : ¬g.boundary <+: [] := fun h => nomatch List.prefix_nil.1 h

variable {f : HeaderField}

open MimeParser in
theorem fieldLines_no_boundary {content : List Element} {g : Guess} (hfree : inUse content g.boundary = false)
    (hf : ∀ e ∈ fieldElements f, e ∈ content) :
    ∀ l ∈ fieldLines f, isBoundaryLine g.boundary l = false := by
  intro l hl
  apply isBoundaryLine_eq_false
  intro hstart
  rw [fieldLines, List.mem_cons, List.mem_cons] at hl
  rcases hl with rfl | rfl | hl
  · obtain ⟨rest, hrest⟩ := hstart
    have hhead : some (45 : UInt8) = some 67 := congrArg List.head? hrest
    exact absurd hhead (by decide)
  · exact not_prefix_nil hstart
  · have hne : l ≠ [] := by
      rintro rfl
      exact not_prefix_nil hstart
    obtain ⟨piece, hpiece, hline⟩ := exists_rawPiece f.value l hl hne
    have hmem : text piece ∈ fieldElements f := by
      rw [fieldElements]
      exact List.mem_append_left _ (List.mem_cons_of_mem _ (List.mem_cons_of_mem _ (List.mem_map_of_mem hpiece)))
    exact not_prefix_of_not_inUse hfree (hf _ hmem) (hstart.trans hline)

/-! ### The round trip -/

namespace MimeParser

variable (createCharset : CharsetFactory)

theorem getBody_entity (table : HeaderTable) (body : Bytes) : (entity table body).getBody = (stripCR body).splitOn 10 := by
  obtain ⟨first, rest, hsplit⟩ := List.exists_cons_of_ne_nil (List.splitOn_ne_nil 10 (stripCR body))
  have hlines : (entity table body).getBody = (BodyVec.empty.addBody (stripCR body)).toList := rfl
  rw [hlines, BodyVec.toList_addBody, hsplit]
  rfl

theorem getBodyAsString_entity (table : HeaderTable) (body : Bytes) :
    (entity table body).getBodyAsString = stripCR body := by
  rw [getBodyAsString, getBody_entity, List.intercalate_splitOn]

theorem intercalate_newline (line : Bytes) (lines : List Bytes) :
    [10].intercalate (line :: lines) = line ++ lines.flatMap fun line => 10 :: line := by
  induction lines generalizing line with
  | nil => rw [List.intercalate_singleton, List.flatMap_nil, List.append_nil]
  | cons next lines ih =>
    rw [List.intercalate_cons_cons, ih next, List.flatMap_cons, List.append_assoc]
    rfl

theorem copyBodyPart_cons (line : Bytes) (lines : List Bytes) :
    create.copyBodyPart createCharset (line :: lines) =
      (create.handleData createCharset ([10].intercalate (line :: lines))).finish createCharset := by
  have hfold : ∀ (lines : List Bytes) (text : Bytes),
      lines.foldl (fun p line => (p.handleData createCharset [10]).handleData createCharset line)
          (create.handleData createCharset text) =
        create.handleData createCharset (text ++ lines.flatMap fun line => 10 :: line) := by
    intro lines
    induction lines with
    | nil =>
      intro text
      rw [List.flatMap_nil, List.append_nil]
      rfl
    | cons line lines ih =>
      intro text
      rw [List.foldl_cons, ← handleData_append, ← handleData_append, ih, List.flatMap_cons, List.append_assoc]
      rfl
  have hclear : create.clear = create := rfl
  rw [copyBodyPart, hclear, intercalate_newline, hfold]

/-- A name that has no meaning for the parser. -/
structure PlainName (name : Bytes) : Prop where
  nonempty : name ≠ []
  bytes : ∀ c ∈ name, Http.IsNameByte c
  noTrace : strCaseCompare name (lit "Received") ≠ 0
  noEncoding : strCaseCompare (lit "Content-Transfer-Encoding") name ≠ 0

/-- A header field with such a name, and a value that is taken as it is. -/
structure PlainField (f : HeaderField) : Prop where
  name : PlainName f.name
  bytes : ∀ c ∈ f.value, Http.IsValueByte c
  blank : f.value.dropWhile Http.isBlank = f.value
  trimmed : strLTrim f.value = f.value
  noWord : decodeHeader createCharset f.value = f.value

variable {createCharset}

theorem PlainField.getHeaders (h : PlainField createCharset f) (body : Bytes) :
    (entity [f] body).getHeaders createCharset = [f] := by
  have hheaders : (entity [f] body).getHeaders createCharset =
      ([f].filter fun f => !isReceived f).map fun f => ⟨f.name, decodeHeader createCharset (strLTrim f.value)⟩ := rfl
  have hother : isReceived f = false := decide_eq_false h.name.noTrace
  rw [hheaders, List.filter_cons_of_pos (by rw [hother]; rfl), List.filter_nil, List.map_singleton, h.trimmed, h.noWord]

theorem PlainField.get_encoding (h : PlainField createCharset f) :
    HeaderTable.get ((entity [f] []).getHeaders createCharset) (lit "Content-Transfer-Encoding") = none := by
  rw [h.getHeaders, HeaderTable.get, List.find?_singleton, if_neg fun hsame => h.name.noEncoding (of_decide_eq_true hsame)]

theorem PlainField.isHeader (h : PlainField createCharset f) :
    IsHeader (HeaderTable.writeHeaders [f] ++ [13, 10]) [f] :=
  isHeader_writeHeaders (List.forall_mem_singleton.2 ⟨h.name.nonempty, h.name.bytes, h.bytes, h.blank⟩)

theorem PlainField.handleData (h : PlainField createCharset f) (body : Bytes) :
    create.handleData createCharset (HeaderTable.writeHeaders [f] ++ [13, 10] ++ body) = entity [f] body :=
  handleData_entity createCharset h.isHeader h.get_encoding body

theorem PlainField.handleData_stripped (h : PlainField createCharset f) (body : Bytes) :
    create.handleData createCharset (stripCR (HeaderTable.writeHeaders [f] ++ [13, 10]) ++ body) = entity [f] body :=
  handleData_entity createCharset h.isHeader.stripCR h.get_encoding body

theorem plainName_disposition : PlainName (lit "Content-Disposition") :=
  ⟨by decide, List.all_iff_forall_prop.mp (by decide), by decide, by decide⟩

theorem plainName_contentType : PlainName (lit "Content-Type") :=
  ⟨by decide, List.all_iff_forall_prop.mp (by decide), by decide, by decide⟩

theorem plainField_disposition (h : FieldName name) :
    PlainField createCharset ⟨lit "Content-Disposition", disposition name⟩ where
  name := plainName_disposition
  bytes := fun c hc => ⟨(h.disposition c hc).2.2, (h.disposition c hc).1, (h.disposition c hc).2.1⟩
  blank := rfl
  trimmed := rfl
  noWord := decodeHeader_disposition createCharset h

theorem plainField_formType (g : Guess) : PlainField createCharset ⟨lit "Content-Type", formType g.digits⟩ where
  name := plainName_contentType
  bytes := by
    intro c hc
    rcases List.mem_append.1 hc with hc | hc
    · have hall : ∀ c ∈ lit "multipart/form-data; boundary=", Http.IsValueByte c := List.all_iff_forall_prop.mp (by decide)
      exact hall c hc
    · have hdigit := g.charIsDigit c hc
      exact ⟨digit_ne hdigit (by decide), digit_ne hdigit (by decide), digit_ne hdigit (by decide)⟩
  blank := rfl
  trimmed := rfl
  noWord := decodeHeader_formType createCharset g

theorem copyBodyPart_fieldLines (h : FieldName f.name) :
    create.copyBodyPart createCharset (fieldLines f) =
      entity [⟨lit "Content-Disposition", disposition f.name⟩] f.value := by
  have hline : stripCR (fieldLine f.name) = fieldLine f.name := stripCR_of_not_mem fun hmem =>
    (h.fieldLine 13 hmem).1 rfl
  have hheader : stripCR (HeaderTable.writeHeaders [⟨lit "Content-Disposition", disposition f.name⟩] ++ [13, 10]) =
      fieldLine f.name ++ [10, 10] := by
    rw [HeaderTable.writeHeaders, List.flatMap_singleton, List.append_assoc, stripCR_append]
    exact congrArg (· ++ [10, 10]) hline
  have htext : [10].intercalate (fieldLines f) = fieldLine f.name ++ [10, 10] ++ f.value := by
    obtain ⟨first, rest, hsplit⟩ := List.exists_cons_of_ne_nil (List.splitOn_ne_nil 10 f.value)
    have hvalue : [10].intercalate (first :: rest) = f.value := hsplit ▸ List.intercalate_splitOn 10
    rw [fieldLines, hsplit, List.intercalate_cons_cons, List.intercalate_cons_cons, hvalue, List.append_assoc,
      List.append_assoc, List.nil_append, List.append_assoc]
    rfl
  have hfield : PlainField createCharset ⟨lit "Content-Disposition", disposition f.name⟩ := plainField_disposition h
  have hread := hfield.handleData_stripped f.value
  rw [hheader, ← htext] at hread
  rw [fieldLines, copyBodyPart_cons, ← fieldLines, hread]
  rfl

theorem getParts_formType {g : Guess} (hg : g.digits ≠ []) (body : Bytes) (result : MimeParser) :
    (entity [⟨lit "Content-Type", formType g.digits⟩] body).getParts createCharset result =
      (partLines g.boundary (firstPosition g.boundary ((stripCR body).splitOn 10))).map
        (result.copyBodyPart createCharset) := by
  have hget : HeaderTable.get [⟨lit "Content-Type", formType g.digits⟩] (lit "Content-Type") =
      some ⟨lit "Content-Type", formType g.digits⟩ := rfl
  have hprimary : (HeaderField.mk (lit "Content-Type") (formType g.digits)).getPrimaryValue =
      lit "multipart/form-data" := rfl
  rw [getParts, (plainField_formType g).getHeaders, hget]
  dsimp only
  rw [hprimary, if_neg (by decide), if_pos (by decide), getSecondaryValue_formType]
  dsimp only
  rw [if_neg hg, getBody_entity]
  rfl

theorem nextDigits_ne_nil (digits : Bytes) : nextDigits digits ≠ [] := by
  cases digits with
  | nil => exact List.cons_ne_nil _ _
  | cons c digits =>
    rw [nextDigits]
    split_ifs
    · exact List.cons_ne_nil _ _
    · exact List.cons_ne_nil _ _

theorem digits_findBoundary (content : List Element) {g : Guess} (hg : g.digits ≠ []) :
    (findBoundary content g).digits ≠ [] := by
  fun_induction findBoundary content g with
  | case1 g hused ih => exact ih (nextDigits_ne_nil g.digits)
  | case2 g hfree => exact hg

theorem boundary_plain (g : Guess) : ∀ c ∈ g.boundary, c ≠ 13 ∧ c ≠ 10 := by
  rw [Guess.boundary, List.forall_mem_cons, List.forall_mem_cons]
  exact ⟨by decide, by decide, fun c hc => ⟨digit_ne (g.charIsDigit c hc) (by decide),
    digit_ne (g.charIsDigit c hc) (by decide)⟩⟩

theorem getParts_form (htab : tab ≠ []) (hnames : ∀ f ∈ tab, FieldName f.name)
    (hvalues : ∀ f ∈ tab, 13 ∉ f.value) {g : Guess}
    (hg : g = findBoundary ((MimeBuilder.create (lit "multipart/form-data")).addFormFields tab).content .first) :
    (entity [⟨lit "Content-Type", formType g.digits⟩] (g.boundary ++ CRLF ++ formBody g.boundary tab)).getParts
        createCharset create =
      tab.map fun f => entity [⟨lit "Content-Disposition", disposition f.name⟩] f.value := by
  obtain ⟨-, hcontent⟩ := content_addFormFields (show lit "multipart/form-data" ≠ [] by decide) htab
  have hfree := hg ▸ not_inUse_findBoundary _ .first
  have hdigits : g.digits ≠ [] := hg ▸ digits_findBoundary _ (by decide)
  have hlines : ∀ f ∈ tab, ∀ l ∈ fieldLines f, isBoundaryLine g.boundary l = false := by
    intro f hf
    apply fieldLines_no_boundary hfree
    intro e he
    rw [hcontent]
    exact List.mem_append_right _ (List.mem_flatMap.2 ⟨f, hf, he⟩)
  have hfirst : firstPosition g.boundary (g.boundary :: formLines g.boundary tab) = formLines g.boundary tab := by
    rw [firstPosition, findNextBoundary, if_pos (isBoundaryLine_self _)]
    rfl
  rw [getParts_formType hdigits, stripCR_line (boundary_plain g),
    splitOn_formBody (boundary_plain g) hnames hvalues, hfirst,
    partLines_formLines (isBoundaryLine_eq_false not_prefix_nil) hlines, List.map_map]
  apply List.map_congr_left
  intro f hf
  exact copyBodyPart_fieldLines (hnames f hf)

theorem getParts_noFields (hp : p = create.handleData createCharset
      (((MimeBuilder.create (lit "multipart/form-data")).addFormFields []).finish.1.write false)) :
    p.getParts createCharset create = [] ∧ (p.finish createCharset).getParts createCharset create = [] := by
  have hguess : findBoundary [⟨[], .contentTypeElement⟩] .first = .first := by
    rw [findBoundary, if_neg (by decide)]
  have htext : ((MimeBuilder.create (lit "multipart/form-data")).addFormFields []).finish.1.write false =
      HeaderTable.writeHeaders [⟨lit "Content-Type", formType Guess.first.digits⟩] := by
    have hcontent : ((MimeBuilder.create (lit "multipart/form-data")).addFormFields []).content =
        [⟨[], .contentTypeElement⟩] := rfl
    rw [MimeBuilder.finish, hcontent, hguess]
    rfl
  have hheader : HeaderParser.create.handleData
      (HeaderTable.writeHeaders [⟨lit "Content-Type", formType Guess.first.digits⟩]) =
      (⟨[], false, false, lit "Content-Type", formType Guess.first.digits, .newline⟩, []) := by
    decide
  have hread : p = { create with
      headerParser := ⟨[], false, false, lit "Content-Type", formType Guess.first.digits, .newline⟩ } := by
    rw [hp, htext]
    refine (handleData_incomplete createCharset rfl ?_).trans ?_
    · rw [show create.headerParser = HeaderParser.create from rfl, hheader]
      decide
    · rw [show create.headerParser = HeaderParser.create from rfl, hheader]
  have hfield : PlainField createCharset ⟨lit "Content-Type", formType Guess.first.digits⟩ := plainField_formType .first
  have hplain := hfield.get_encoding
  have hfinish : p.finish createCharset = entity [⟨lit "Content-Type", formType Guess.first.digits⟩] [] := by
    have hlines : HeaderParser.handleData ⟨[], false, false, lit "Content-Type", formType Guess.first.digits, .newline⟩
        [10, 10] = (⟨[⟨lit "Content-Type", formType Guess.first.digits⟩], false, false, [], [], .final⟩, [10]) := by
      decide
    have hend : ∀ headerParser : HeaderParser, finish createCharset { create with headerParser := headerParser } =
        { takeHeader createCharset { create with headerParser := headerParser } (headerParser.handleData [10, 10]).1 with
          accum := [] } := fun _ => rfl
    rw [hread, hend, hlines, takeHeader_plain createCharset hplain]
    rfl
  refine ⟨?_, ?_⟩
  · rw [hread]
    rfl
  · rw [hfinish, getParts_formType (by decide), partLines]
    rfl

end MimeParser

open MimeParser

/-- **The round trip of a form.** -/
theorem getParts_addFormFields (createCharset : CharsetFactory) (table : HeaderTable)
    (hnames : ∀ f ∈ table, FieldName f.name) (hvalues : ∀ f ∈ table, 13 ∉ f.value) (pieces : List Bytes)
    (hpieces : pieces.flatten =
      ((MimeBuilder.create (lit "multipart/form-data")).addFormFields table).finish.1.write false)
    {p q : MimeParser} (hp : p = pieces.foldl (MimeParser.handleData createCharset) .create)
    (hq : q = p ∨ q = p.finish createCharset) :
    (q.getParts createCharset .create).map (fun part =>
        ((HeaderTable.get (part.getHeaders createCharset) (lit "Content-Disposition")).bind fun f =>
          f.getSecondaryValue (lit "name") .default, part.getBodyAsString)) =
      table.map fun f => (some f.name, f.value) := by
  rw [feed_eq createCharset (fun _ => by decide), hpieces] at hp
  by_cases htable : table = []
  · obtain ⟨hnow, hfinish⟩ := getParts_noFields (htable ▸ hp)
    rcases hq with rfl | rfl
    · rw [hnow, htable]
      rfl
    · rw [hfinish, htable]
      rfl
  · rw [write_form htable, (plainField_formType _).handleData] at hp
    have hparts : q.getParts createCharset .create =
        table.map fun f => entity [⟨lit "Content-Disposition", disposition f.name⟩] f.value := by
      have hentity : q = p := by
        rcases hq with hq | hq
        · exact hq
        · rw [hq, hp]
          rfl
      rw [hentity, hp]
      exact getParts_form htable hnames hvalues rfl
    rw [hparts, List.map_map]
    apply List.map_congr_left
    intro f hf
    have hget : HeaderTable.get [⟨lit "Content-Disposition", disposition f.name⟩] (lit "Content-Disposition") =
        some ⟨lit "Content-Disposition", disposition f.name⟩ := rfl
    rw [Function.comp_apply, (plainField_disposition (hnames f hf)).getHeaders, hget, Option.bind_some,
      getSecondaryValue_disposition (hnames f hf), getBodyAsString_entity, stripCR_of_not_mem (hvalues f hf)]

theorem getParts_addFormFields_quote :
    let table := [⟨lit "a\"b", lit "--000\n"⟩, ⟨lit "c", []⟩]
    let out := ((MimeBuilder.create (lit "multipart/form-data")).addFormFields table).finish.1.write false
    let p := [out.take 7, out.drop 7].foldl (MimeParser.handleData fun _ => none) .create
    ((p.finish fun _ => none).getParts (fun _ => none) .create).map (fun part =>
        ((HeaderTable.get (part.getHeaders fun _ => none) (lit "Content-Disposition")).bind fun f =>
          f.getSecondaryValue (lit "name") .default, part.getBodyAsString)) =
      [(some (lit "a\"b"), lit "--000\n"), (some (lit "c"), [])] := by
  intro table out p
  have hfirst : FieldName (lit "a\"b") :=
    ⟨List.all_iff_forall_prop.mp (by decide), by decide, by rintro _ ⟨⟩; rfl, by rintro _ ⟨⟩; rfl⟩
  have hsecond : FieldName (lit "c") :=
    ⟨List.all_iff_forall_prop.mp (by decide), by decide, by rintro _ ⟨⟩; rfl, by rintro _ ⟨⟩; rfl⟩
  have hnames : ∀ f ∈ table, FieldName f.name :=
    List.forall_mem_cons.2 ⟨hfirst, List.forall_mem_singleton.2 hsecond⟩
  have hpieces : [out.take 7, out.drop 7].flatten = out := by
    rw [List.flatten_cons, List.flatten_singleton, List.take_append_drop]
  exact getParts_addFormFields (fun _ => none) table hnames (by decide) _ hpieces rfl (.inr rfl)

end Afl.Net
