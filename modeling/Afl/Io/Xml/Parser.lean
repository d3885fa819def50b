import Afl.Io.Xml.Node

/-!
# The XML parser

`afl/io/xml/parser.cpp`: nodes are built from the tokens of a reader, whichever it is. Every function has fuel for its
loops and recursive calls; `none` says that it has not returned by then, or that the reader has not.
-/

namespace Afl.Io.Xml

variable {σ : Type}

/-- `Parser`: the reader and the current token. -/
structure Parser (σ : Type) where
  reader : σ
  token : Token

namespace Parser

variable (reader : BaseReader σ)

def readNext (p : Parser σ) : Option (Parser σ) :=
  match reader.readNext p.reader with
  | none => none
  | some (token, s) => some ⟨s, token⟩

/-- `Parser(rdr)`. -/
def new (s : σ) : Option (Parser σ) := readNext reader ⟨s, .null⟩

def attributesLoop (which : Token) : Nat → Attributes → Parser σ → Option (Attributes × Parser σ)
  | 0, _, _ => none
  | fuel + 1, attributes, p =>
    if p.token = which then
      match p.readNext reader with
      | none => none
      | some p' =>
        attributesLoop which fuel
          (setAttribute (reader.getName p.reader) (reader.getValue p.reader) attributes) p'
    else some (attributes, p)

def parsePI (fuel : Nat) (p : Parser σ) : Option (Node × Parser σ) :=
  match p.readNext reader with
  | none => none
  | some p' =>
    match attributesLoop reader .piAttribute fuel [] p' with
    | none => none
    | some (attributes, p'') => some (.pi (reader.getTag p.reader) attributes, p'')

mutual

def parse : Nat → Parser σ → Option (Option Node × Parser σ)
  | 0, _ => none
  | fuel + 1, p =>
    match p.token with
    | .eof | .tagEnd | .null | .error => some (none, p)
    | .tagStart =>
      match parseTag fuel p with
      | none => none
      | some (node, p') => some (some node, p')
    | .piStart =>
      match parsePI reader fuel p with
      | none => none
      | some (node, p') => some (some node, p')
    | .tagAttribute | .piAttribute | .comment =>
      match p.readNext reader with
      | none => none
      | some p' => parse fuel p'
    | .text =>
      match p.readNext reader with
      | none => none
      | some p' => some (some (.text (reader.getValue p.reader)), p')

def parseNodes : Nat → List Node → Parser σ → Option (List Node × Parser σ)
  | 0, _, _ => none
  | fuel + 1, nodes, p =>
    match parse fuel p with
    | none => none
    | some (none, p') => some (nodes, p')
    | some (some node, p') => parseNodes fuel (nodes ++ [node]) p'

def parseTag : Nat → Parser σ → Option (Node × Parser σ)
  | 0, _ => none
  | fuel + 1, p =>
    match p.readNext reader with
    | none => none
    | some p₁ =>
      match attributesLoop reader .tagAttribute fuel [] p₁ with
      | none => none
      | some (attributes, p₂) =>
        match parseNodes fuel [] p₂ with
        | none => none
        | some (children, p₃) =>
          let node := Node.tag (reader.getTag p.reader) attributes children
          if p₃.token = .tagEnd ∧ reader.getTag p₃.reader = reader.getTag p.reader then
            match p₃.readNext reader with
            | none => none
            | some p₄ => some (node, p₄)
          else some (node, p₃)

end

/-! ### Parsing the tokens of nodes -/

variable {reader} {p : Parser σ} {item item' : Item} {rest k : List Item}

variable (reader) in
/-- The parser has the first of these tokens, and the reader gives the others. -/
def Ahead (p : Parser σ) (items : List Item) : Prop :=
  ∃ rest t, items = .make p.token (reader.getTag p.reader) (reader.getName p.reader) (reader.getValue p.reader) :: rest ∧
    Emits reader.next p.reader rest t

theorem readNext_of_next {s s' : σ} (h : reader.next s = some (item, s')) :
    ∃ token, reader.readNext s = some (token, s') ∧
      item = .make token (reader.getTag s') (reader.getName s') (reader.getValue s') := by
  unfold BaseReader.next at h
  split at h
  · cases h
  · next token s'' hread =>
    cases h
    exact ⟨token, hread, rfl⟩

theorem Ahead.readNext (h : Ahead reader p (item :: rest)) (hne : rest ≠ []) :
    ∃ p', p.readNext reader = some p' ∧ Ahead reader p' rest := by
  obtain ⟨rest', t, hitems, hemits⟩ := h
  obtain ⟨-, rfl⟩ := List.cons.inj hitems
  cases hemits with
  | nil => exact absurd rfl hne
  | cons hnext hrest =>
    obtain ⟨token, hread, hitem⟩ := readNext_of_next hnext
    refine ⟨⟨_, token⟩, ?_, _, t, by rw [hitem], hrest⟩
    rw [Parser.readNext, hread]

theorem Ahead.head (h : Ahead reader p (item :: rest)) :
    item = .make p.token (reader.getTag p.reader) (reader.getName p.reader) (reader.getValue p.reader) := by
  obtain ⟨rest', t, hitems, -⟩ := h
  exact (List.cons.inj hitems).1

theorem new_ahead {s t : σ} (h : Emits reader.next s (item :: rest) t) :
    ∃ p, new reader s = some p ∧ Ahead reader p (item :: rest) := by
  cases h with
  | cons hnext hrest =>
    obtain ⟨token, hread, hitem⟩ := readNext_of_next hnext
    refine ⟨⟨_, token⟩, ?_, rest, t, by rw [hitem], hrest⟩
    rw [new, readNext, hread]

def tokenOf : Item → Token
  | .eof => .eof
  | .tagStart _ => .tagStart
  | .tagAttribute _ _ _ => .tagAttribute
  | .tagEnd _ => .tagEnd
  | .piStart _ => .piStart
  | .piAttribute _ _ _ => .piAttribute
  | .comment _ => .comment
  | .text _ => .text
  | .null => .null
  | .error => .error

theorem tokenOf_make (token : Token) (tag name value : Bytes) : tokenOf (.make token tag name value) = token := by
  cases token <;> rfl

theorem Ahead.token (h : Ahead reader p (item :: rest)) : p.token = tokenOf item := by
  rw [h.head, tokenOf_make]

def Fresh (k : List Item) : Prop :=
  ∃ item rest, k = item :: rest ∧ tokenOf item ≠ .tagAttribute ∧ tokenOf item ≠ .piAttribute

theorem Fresh.ne_nil (h : Fresh k) : k ≠ [] := by
  obtain ⟨item, rest, rfl, -⟩ := h
  exact List.cons_ne_nil item rest

theorem setAttribute_new {name value : Bytes} {attributes : Attributes} (h : name ∉ attributes.map Prod.fst) :
    setAttribute name value attributes = attributes ++ [(name, value)] := by
  induction attributes with
  | nil => rfl
  | cons a attributes ih =>
    rw [List.map_cons, List.mem_cons, not_or] at h
    rw [setAttribute, if_neg (Ne.symm h.1), ih h.2]
    rfl

theorem attributesLoop_eq {which : Token} (hwhich : which = .tagAttribute ∨ which = .piAttribute) {tag : Bytes}
    {attributes : Attributes} (before : Attributes) (hnodup : ((before ++ attributes).map Prod.fst).Nodup) (hk : Fresh k)
    (hp : Ahead reader p ((attributes.map fun a => Item.make which tag a.1 a.2) ++ k)) :
    ∃ p', Ahead reader p' k ∧
      ∀ fuel, attributes.length < fuel → attributesLoop reader which fuel before p = some (before ++ attributes, p') := by
  induction attributes generalizing p before with
  | nil =>
    refine ⟨p, hp, fun fuel hfuel => ?_⟩
    obtain ⟨fuel, rfl⟩ := Nat.exists_eq_succ_of_ne_zero (Nat.ne_of_gt hfuel)
    obtain ⟨item, rest, rfl, htag, hpi⟩ := hk
    have htoken : p.token ≠ which := by
      rw [Ahead.token hp]
      rcases hwhich with rfl | rfl
      · exact htag
      · exact hpi
    rw [attributesLoop, if_neg htoken, List.append_nil]
  | cons a attributes ih =>
    rw [List.map_cons, List.cons_append] at hp
    have htoken : p.token = which := by
      rw [hp.token, tokenOf_make]
    have hhead := hp.head
    rw [htoken] at hhead
    have hvalues : a.1 = reader.getName p.reader ∧ a.2 = reader.getValue p.reader := by
      rcases hwhich with rfl | rfl
      · exact (Item.tagAttribute.inj hhead).2
      · exact (Item.piAttribute.inj hhead).2
    obtain ⟨p₁, hread, hp₁⟩ := hp.readNext (List.append_ne_nil_of_right_ne_nil _ hk.ne_nil)
    have hnew : a.1 ∉ before.map Prod.fst := by
      intro hmem
      rw [List.map_append, List.nodup_append] at hnodup
      exact hnodup.2.2 a.1 hmem a.1 (List.mem_cons_self) rfl
    have happend : before ++ a :: attributes = (before ++ [a]) ++ attributes := (List.append_cons before a attributes)
    rw [happend] at hnodup ⊢
    obtain ⟨p', hp', hloop⟩ := ih (before ++ [a]) hnodup hp₁
    refine ⟨p', hp', fun fuel hfuel => ?_⟩
    obtain ⟨fuel, rfl⟩ := Nat.exists_eq_succ_of_ne_zero (Nat.ne_of_gt (Nat.zero_lt_of_lt hfuel))
    rw [attributesLoop, if_pos htoken, hread]
    simp only
    rw [← hvalues.1, ← hvalues.2, setAttribute_new hnew]
    exact hloop fuel (Nat.lt_of_succ_lt_succ hfuel)

mutual

/-- Every node has attributes with different names. -/
def Distinct : Node → Prop
  | .pi _ attributes => (attributes.map Prod.fst).Nodup
  | .tag _ attributes children => (attributes.map Prod.fst).Nodup ∧ DistinctAll children
  | .text _ => True

def DistinctAll : List Node → Prop
  | [] => True
  | node :: nodes => Distinct node ∧ DistinctAll nodes

end

theorem fresh_itemsAll (nodes : List Node) (hk : Fresh k) : Fresh (itemsAll verbatim nodes ++ k) := by
  cases nodes with
  | nil => exact hk
  | cons node nodes =>
    rw [itemsAll]
    cases node with
    | text text =>
      rw [Node.items]
      exact ⟨_, _, rfl, nofun, nofun⟩
    | pi name attributes =>
      rw [Node.items]
      exact ⟨_, _, rfl, nofun, nofun⟩
    | tag name attributes children =>
      rw [Node.items]
      exact ⟨_, _, rfl, nofun, nofun⟩

/-- What ends a list of nodes. -/
def Stop (k : List Item) : Prop := ∃ item rest, k = item :: rest ∧ (tokenOf item = .eof ∨ tokenOf item = .tagEnd)

theorem Stop.fresh (h : Stop k) : Fresh k := by
  obtain ⟨item, rest, hk, hstop⟩ := h
  refine ⟨item, rest, hk, ?_⟩
  rcases hstop with hstop | hstop
  · rw [hstop]
    exact ⟨by decide, by decide⟩
  · rw [hstop]
    exact ⟨by decide, by decide⟩

mutual

/-- **Parsing a node.** The tokens of a node make the node. -/
theorem parse_node (node : Node) (hnode : Distinct node) {p : Parser σ} {k : List Item} (hk : Fresh k)
    (hp : Ahead reader p (node.items verbatim ++ k)) :
    ∃ n p', Ahead reader p' k ∧ ∀ fuel, n ≤ fuel → parse reader fuel p = some (some node, p') :=
  match node with
  | .text text => by
    rw [Node.items] at hp
    obtain ⟨p', hread, hp'⟩ := Ahead.readNext hp hk.ne_nil
    have htoken : p.token = .text := Ahead.token hp
    have hhead := Ahead.head hp
    rw [htoken] at hhead
    have hvalue := Item.text.inj hhead
    refine ⟨1, p', hp', fun fuel hfuel => ?_⟩
    obtain ⟨fuel, rfl⟩ := Nat.exists_eq_succ_of_ne_zero (Nat.ne_of_gt hfuel)
    rw [parse, htoken, hvalue]
    simp only [hread]
  | .pi name attributes => by
    rw [Distinct] at hnode
    rw [Node.items, List.cons_append] at hp
    have htoken : p.token = .piStart := hp.token
    have hhead := hp.head
    rw [htoken] at hhead
    have hname := Item.piStart.inj hhead
    obtain ⟨p₁, hread, hp₁⟩ := hp.readNext (List.append_ne_nil_of_right_ne_nil _ hk.ne_nil)
    obtain ⟨p₂, hp₂, hloop⟩ := attributesLoop_eq (.inr rfl) [] hnode hk hp₁
    refine ⟨attributes.length + 2, p₂, hp₂, fun fuel hfuel => ?_⟩
    obtain ⟨fuel, rfl⟩ := Nat.exists_eq_succ_of_ne_zero (Nat.ne_of_gt (Nat.zero_lt_of_lt hfuel))
    rw [parse, htoken, hname]
    simp only [parsePI, hread, hloop fuel (by omega)]
    rfl
  | .tag name attributes children => by
    rw [Distinct] at hnode
    rw [Node.items, List.cons_append, List.cons_append, List.cons_append, List.append_assoc, List.append_assoc] at hp
    have htoken : p.token = .tagStart := hp.token
    have hhead := hp.head
    rw [htoken] at hhead
    have hname := Item.tagStart.inj hhead
    have hstop : Stop ([Item.tagEnd name] ++ k) := ⟨_, _, rfl, .inr rfl⟩
    have hfresh := fresh_itemsAll children hstop.fresh
    obtain ⟨p₁, hread, hp₁⟩ := hp.readNext (List.append_ne_nil_of_right_ne_nil _ hfresh.ne_nil)
    obtain ⟨p₂, hp₂, hloop⟩ := attributesLoop_eq (.inl rfl) [] hnode.1 hfresh hp₁
    obtain ⟨n, p₃, hp₃, hchildren⟩ := parse_nodes children hnode.2 hstop [] hp₂
    have htoken₃ : p₃.token = .tagEnd := Ahead.token hp₃
    have hhead₃ := Ahead.head hp₃
    rw [htoken₃] at hhead₃
    have hname₃ := Item.tagEnd.inj hhead₃
    obtain ⟨p₄, hread₄, hp₄⟩ := Ahead.readNext hp₃ hk.ne_nil
    refine ⟨max (attributes.length + 1) n + 2, p₄, hp₄, fun fuel hfuel => ?_⟩
    obtain ⟨fuel, rfl⟩ : ∃ m, fuel = m + 2 := ⟨fuel - 2, by omega⟩
    rw [parse, htoken]
    simp only [parseTag, hread, hloop fuel (by omega), hchildren fuel (by omega), htoken₃, ← hname, ← hname₃, hread₄]
    rfl

theorem parse_nodes (nodes : List Node) (hnodes : DistinctAll nodes) {p : Parser σ} {k : List Item} (hk : Stop k)
    (before : List Node) (hp : Ahead reader p (itemsAll verbatim nodes ++ k)) :
    ∃ n p', Ahead reader p' k ∧ ∀ fuel, n ≤ fuel → parseNodes reader fuel before p = some (before ++ nodes, p') :=
  match nodes with
  | [] => by
    refine ⟨2, p, hp, fun fuel hfuel => ?_⟩
    obtain ⟨fuel, rfl⟩ : ∃ m, fuel = m + 2 := ⟨fuel - 2, by omega⟩
    obtain ⟨item, rest, rfl, hstop⟩ := hk
    have htoken : p.token = tokenOf item := Ahead.token hp
    rw [parseNodes, parse, htoken, List.append_nil]
    rcases hstop with hstop | hstop
    · rw [hstop]
    · rw [hstop]
  | node :: nodes => by
    rw [DistinctAll] at hnodes
    rw [itemsAll, List.append_assoc] at hp
    obtain ⟨n, p₁, hp₁, hnode⟩ := parse_node node hnodes.1 (fresh_itemsAll nodes hk.fresh) hp
    obtain ⟨n', p₂, hp₂, hrest⟩ := parse_nodes nodes hnodes.2 hk (before ++ [node]) hp₁
    refine ⟨max n n' + 1, p₂, hp₂, fun fuel hfuel => ?_⟩
    obtain ⟨fuel, rfl⟩ : ∃ m, fuel = m + 1 := ⟨fuel - 1, by omega⟩
    rw [parseNodes, hnode fuel (by omega)]
    simp only
    rw [hrest fuel (by omega), List.append_assoc]
    rfl

end

/-! ### More fuel -/

/-- A reader that returns whenever another one does, with the same result. -/
structure Extends (reader reader' : BaseReader σ) : Prop where
  readNext : ∀ {s r}, reader.readNext s = some r → reader'.readNext s = some r
  getTag : reader'.getTag = reader.getTag
  getName : reader'.getName = reader.getName
  getValue : reader'.getValue = reader.getValue

section

variable {reader' : BaseReader σ} (hext : Extends reader reader') {fuel fuel' : Nat}

include hext

theorem readNext_mono {p' : Parser σ} (h : p.readNext reader = some p') : p.readNext reader' = some p' := by
  unfold Parser.readNext at h ⊢
  split at h
  · cases h
  · next token s hread =>
    rw [hext.readNext hread]
    exact h

theorem attributesLoop_mono {which : Token} {attributes : Attributes} {r : Attributes × Parser σ} (hle : fuel ≤ fuel')
    (h : attributesLoop reader which fuel attributes p = some r) :
    attributesLoop reader' which fuel' attributes p = some r := by
  induction fuel generalizing fuel' attributes p with
  | zero => cases h
  | succ fuel ih =>
    obtain ⟨fuel', rfl⟩ : ∃ m, fuel' = m + 1 := ⟨fuel' - 1, by omega⟩
    rw [attributesLoop] at h ⊢
    split_ifs at h ⊢
    · split at h
      · cases h
      · next p' hread =>
        rw [readNext_mono hext hread, hext.getName, hext.getValue]
        exact ih (Nat.le_of_succ_le_succ hle) h
    · exact h

theorem parsePI_mono {r : Node × Parser σ} (hle : fuel ≤ fuel') (h : parsePI reader fuel p = some r) :
    parsePI reader' fuel' p = some r := by
  unfold parsePI at h ⊢
  split at h
  · cases h
  · next p' hread =>
    rw [readNext_mono hext hread]
    split at h
    · cases h
    · next attributes p'' hloop =>
      simp only [attributesLoop_mono hext hle hloop, hext.getTag]
      exact h

end

mutual

theorem parse_mono {reader' : BaseReader σ} (hext : Extends reader reader') (fuel : Nat) {fuel' : Nat} {p : Parser σ}
    {r : Option Node × Parser σ} (hle : fuel ≤ fuel') (h : parse reader fuel p = some r) :
    parse reader' fuel' p = some r :=
  match fuel, hle, h with
  | fuel + 1, hle, h => by
    obtain ⟨fuel', rfl⟩ : ∃ m, fuel' = m + 1 := ⟨fuel' - 1, by omega⟩
    have hle := Nat.le_of_succ_le_succ hle
    rw [parse] at h ⊢
    cases htoken : p.token with
    | eof | tagEnd | null | error =>
      rw [htoken] at h
      exact h
    | tagStart =>
      simp only [htoken] at h ⊢
      split at h
      · cases h
      · next node p' htag =>
        rw [parseTag_mono hext fuel hle htag]
        exact h
    | piStart =>
      simp only [htoken] at h ⊢
      split at h
      · cases h
      · next node p' hpi =>
        rw [parsePI_mono hext hle hpi]
        exact h
    | tagAttribute | piAttribute | comment =>
      simp only [htoken] at h ⊢
      split at h
      · cases h
      · next p' hread =>
        rw [readNext_mono hext hread]
        exact parse_mono hext fuel hle h
    | text =>
      simp only [htoken] at h ⊢
      split at h
      · cases h
      · next p' hread =>
        rw [readNext_mono hext hread, hext.getValue]
        exact h

theorem parseNodes_mono {reader' : BaseReader σ} (hext : Extends reader reader') (fuel : Nat) {fuel' : Nat}
    {nodes : List Node} {p : Parser σ} {r : List Node × Parser σ} (hle : fuel ≤ fuel')
    (h : parseNodes reader fuel nodes p = some r) : parseNodes reader' fuel' nodes p = some r :=
  match fuel, hle, h with
  | fuel + 1, hle, h => by
    obtain ⟨fuel', rfl⟩ : ∃ m, fuel' = m + 1 := ⟨fuel' - 1, by omega⟩
    have hle := Nat.le_of_succ_le_succ hle
    rw [parseNodes] at h ⊢
    split at h
    · cases h
    · next p' hparse =>
      rw [parse_mono hext fuel hle hparse]
      exact h
    · next node p' hparse =>
      rw [parse_mono hext fuel hle hparse]
      exact parseNodes_mono hext fuel hle h

theorem parseTag_mono {reader' : BaseReader σ} (hext : Extends reader reader') (fuel : Nat) {fuel' : Nat} {p : Parser σ}
    {r : Node × Parser σ} (hle : fuel ≤ fuel') (h : parseTag reader fuel p = some r) :
    parseTag reader' fuel' p = some r :=
  match fuel, hle, h with
  | fuel + 1, hle, h => by
    obtain ⟨fuel', rfl⟩ : ∃ m, fuel' = m + 1 := ⟨fuel' - 1, by omega⟩
    have hle := Nat.le_of_succ_le_succ hle
    rw [parseTag] at h ⊢
    split at h
    · cases h
    next p₁ hread₁ =>
    split at h
    · cases h
    next attributes p₂ hloop =>
    split at h
    · cases h
    next children p₃ hchildren =>
    simp only [readNext_mono hext hread₁, attributesLoop_mono hext hle hloop, parseNodes_mono hext fuel hle hchildren,
      hext.getTag]
    simp only at h
    split_ifs at h ⊢
    · split at h
      · cases h
      · next p₄ hread₄ =>
        rw [readNext_mono hext hread₄]
        exact h
    · exact h

end

/-! ### Names -/

theorem setAttribute_narrow {name value : Bytes} {attributes : Attributes} (hname : Narrow name)
    (h : ∀ a ∈ attributes, Narrow a.1) : ∀ a ∈ setAttribute name value attributes, Narrow a.1 := by
  induction attributes with
  | nil => exact List.forall_mem_singleton.mpr hname
  | cons a attributes ih =>
    obtain ⟨ha, hrest⟩ := List.forall_mem_cons.mp h
    rw [setAttribute]
    split_ifs
    · exact List.forall_mem_cons.mpr ⟨ha, hrest⟩
    · exact List.forall_mem_cons.mpr ⟨ha, ih hrest⟩

/-- What the states of a reader guarantee about its names. -/
structure NarrowStates (reader : BaseReader σ) (I : σ → Prop) : Prop where
  readNext : ∀ {s t s'}, I s → reader.readNext s = some (t, s') → I s'
  getTag : ∀ {s}, I s → Narrow (reader.getTag s)
  getName : ∀ {s}, I s → Narrow (reader.getName s)

section

variable {I : σ → Prop} (hstates : NarrowStates reader I) {p' : Parser σ}

include hstates

theorem readNext_narrow (hp : I p.reader) (h : p.readNext reader = some p') : I p'.reader := by
  unfold Parser.readNext at h
  split at h
  · cases h
  · next token s hread =>
    cases h
    exact hstates.readNext hp hread

theorem attributesLoop_narrow {which : Token} {fuel : Nat} {attributes attributes' : Attributes} (hp : I p.reader)
    (hattributes : ∀ a ∈ attributes, Narrow a.1)
    (h : attributesLoop reader which fuel attributes p = some (attributes', p')) :
    I p'.reader ∧ ∀ a ∈ attributes', Narrow a.1 := by
  induction fuel generalizing attributes p with
  | zero => cases h
  | succ fuel ih =>
    rw [attributesLoop] at h
    split_ifs at h
    · split at h
      · cases h
      · next p₁ hread =>
        exact ih (readNext_narrow hstates hp hread)
          (setAttribute_narrow (hstates.getName hp) hattributes) h
    · cases h
      exact ⟨hp, hattributes⟩

theorem parsePI_narrow {fuel : Nat} {node : Node} (hp : I p.reader) (h : parsePI reader fuel p = some (node, p')) :
    I p'.reader ∧ node.NarrowNames := by
  unfold parsePI at h
  split at h
  · cases h
  next p₁ hread =>
  split at h
  · cases h
  next attributes p₂ hloop =>
  cases h
  obtain ⟨hp₂, hattributes⟩ := attributesLoop_narrow hstates (readNext_narrow hstates hp hread) (List.forall_mem_nil _) hloop
  rw [Node.NarrowNames]
  exact ⟨hp₂, hstates.getTag hp, hattributes⟩

end

theorem narrowNamesList_append {nodes nodes' : List Node} (h : NarrowNamesList nodes) (h' : NarrowNamesList nodes') :
    NarrowNamesList (nodes ++ nodes') := by
  induction nodes with
  | nil => exact h'
  | cons node nodes ih =>
    rw [NarrowNamesList] at h
    rw [List.cons_append, NarrowNamesList]
    exact ⟨h.1, ih h.2⟩

mutual

theorem parse_narrow {I : σ → Prop} (hstates : NarrowStates reader I) (fuel : Nat) {p p' : Parser σ}
    {result : Option Node} (hp : I p.reader) (h : parse reader fuel p = some (result, p')) :
    I p'.reader ∧ ∀ node ∈ result, node.NarrowNames :=
  match fuel, h with
  | fuel + 1, h => by
    rw [parse] at h
    cases htoken : p.token with
    | eof | tagEnd | null | error =>
      rw [htoken] at h
      cases h
      exact ⟨hp, nofun⟩
    | tagStart =>
      simp only [htoken] at h
      split at h
      · cases h
      next node p₁ htag =>
      cases h
      obtain ⟨hp₁, hnode⟩ := parseTag_narrow hstates fuel hp htag
      exact ⟨hp₁, fun _ hmem => Option.some.inj hmem ▸ hnode⟩
    | piStart =>
      simp only [htoken] at h
      split at h
      · cases h
      next node p₁ hpi =>
      cases h
      obtain ⟨hp₁, hnode⟩ := parsePI_narrow hstates hp hpi
      exact ⟨hp₁, fun _ hmem => Option.some.inj hmem ▸ hnode⟩
    | tagAttribute | piAttribute | comment =>
      simp only [htoken] at h
      split at h
      · cases h
      next p₁ hread =>
      exact parse_narrow hstates fuel (readNext_narrow hstates hp hread) h
    | text =>
      simp only [htoken] at h
      split at h
      · cases h
      next p₁ hread =>
      cases h
      refine ⟨readNext_narrow hstates hp hread, fun _ hmem => ?_⟩
      rw [← Option.some.inj hmem, Node.NarrowNames]
      trivial

theorem parseNodes_narrow {I : σ → Prop} (hstates : NarrowStates reader I) (fuel : Nat) {p p' : Parser σ}
    {nodes nodes' : List Node} (hp : I p.reader) (hnodes : NarrowNamesList nodes)
    (h : parseNodes reader fuel nodes p = some (nodes', p')) : I p'.reader ∧ NarrowNamesList nodes' :=
  match fuel, h with
  | fuel + 1, h => by
    rw [parseNodes] at h
    split at h
    · cases h
    · next p₁ hparse =>
      cases h
      exact ⟨(parse_narrow hstates fuel hp hparse).1, hnodes⟩
    · next node p₁ hparse =>
      obtain ⟨hp₁, hnode⟩ := parse_narrow hstates fuel hp hparse
      have hall : NarrowNamesList (nodes ++ [node]) := by
        apply narrowNamesList_append hnodes
        rw [NarrowNamesList]
        exact ⟨hnode node rfl, trivial⟩
      exact parseNodes_narrow hstates fuel hp₁ hall h

theorem parseTag_narrow {I : σ → Prop} (hstates : NarrowStates reader I) (fuel : Nat) {p p' : Parser σ} {node : Node}
    (hp : I p.reader) (h : parseTag reader fuel p = some (node, p')) : I p'.reader ∧ node.NarrowNames :=
  match fuel, h with
  | fuel + 1, h => by
    rw [parseTag] at h
    split at h
    · cases h
    next p₁ hread₁ =>
    split at h
    · cases h
    next attributes p₂ hloop =>
    split at h
    · cases h
    next children p₃ hchildren =>
    have hp₁ := readNext_narrow hstates hp hread₁
    obtain ⟨hp₂, hattributes⟩ := attributesLoop_narrow hstates hp₁ (List.forall_mem_nil _) hloop
    have hnil : NarrowNamesList [] := by
      rw [NarrowNamesList]
      trivial
    obtain ⟨hp₃, hnarrow⟩ := parseNodes_narrow hstates fuel hp₂ hnil hchildren
    have hnode : (Node.tag (reader.getTag p.reader) attributes children).NarrowNames := by
      rw [Node.NarrowNames]
      exact ⟨hstates.getTag hp, hattributes, hnarrow⟩
    simp only at h
    split_ifs at h
    · split at h
      · cases h
      next p₄ hread₄ =>
      cases h
      exact ⟨readNext_narrow hstates hp₃ hread₄, hnode⟩
    · cases h
      exact ⟨hp₃, hnode⟩

end

end Parser

end Afl.Io.Xml
