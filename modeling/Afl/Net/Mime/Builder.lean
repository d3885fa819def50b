import Afl.Charset.Base64
import Afl.Charset.UrlEncoding
import Afl.Net.Header
import Mathlib.Algebra.Order.BigOperators.Group.List

/-!
# Building MIME entities

`afl/net/mimebuilder.cpp`.
-/

namespace Afl.Net

open Charset

/-! ### Boundaries -/

/-- The digits of a boundary that `finish` tries. -/
structure Guess where
  digits : Bytes
  isDigit : ∀ c ∈ digits, 48 ≤ c.toNat ∧ c.toNat ≤ 57

/-- The loop in which `finish` guesses a new boundary. -/
def nextDigits : Bytes → Bytes
  | [] => [48]
  | c :: digits => if c = 57 then 48 :: nextDigits digits else (c + 1) :: digits

/-- The number of a guess, with the first digit as the lowest one; there are guesses of all lengths. -/
def rank : Bytes → Nat
  | [] => 0
  | c :: digits => c.toNat - 47 + 10 * rank digits

theorem toNat_succ {c : UInt8} (hc : c.toNat ≤ 57) : (c + 1).toNat = c.toNat + 1 := by
  have hone : (1 : UInt8).toNat = 1 := rfl
  rw [UInt8.toNat_add, hone]
  omega

theorem nextDigits_isDigit {digits : Bytes} (h : ∀ c ∈ digits, 48 ≤ c.toNat ∧ c.toNat ≤ 57) :
    ∀ c ∈ nextDigits digits, 48 ≤ c.toNat ∧ c.toNat ≤ 57 := by
  induction digits with
  | nil =>
    intro c hc
    rw [List.mem_singleton.1 hc]
    decide
  | cons d digits ih =>
    rw [List.forall_mem_cons] at h
    rw [nextDigits]
    split_ifs with hnine
    · rw [List.forall_mem_cons]
      exact ⟨by decide, ih h.2⟩
    · have hd : d.toNat ≠ 57 := fun heq => hnine (UInt8.toNat_inj.1 heq)
      rw [List.forall_mem_cons, toNat_succ h.1.2]
      exact ⟨by omega, h.2⟩

theorem rank_nextDigits {digits : Bytes} (h : ∀ c ∈ digits, 48 ≤ c.toNat ∧ c.toNat ≤ 57) :
    rank (nextDigits digits) = rank digits + 1 := by
  induction digits with
  | nil => rfl
  | cons d digits ih =>
    rw [List.forall_mem_cons] at h
    rw [nextDigits]
    split_ifs with hnine
    · rw [rank, rank, ih h.2, hnine]
      have h48 : (48 : UInt8).toNat = 48 := rfl
      have h57 : (57 : UInt8).toNat = 57 := rfl
      omega
    · rw [rank, rank, toNat_succ h.1.2]
      omega

theorem rank_lt {digits : Bytes} (h : ∀ c ∈ digits, 48 ≤ c.toNat ∧ c.toNat ≤ 57) :
    rank digits + 2 ≤ 2 * 10 ^ digits.length := by
  induction digits with
  | nil => exact Nat.le_refl _
  | cons d digits ih =>
    rw [List.forall_mem_cons] at h
    have hrest := ih h.2
    rw [rank, List.length_cons, Nat.pow_succ]
    omega

theorem rank_inj {digits₁ digits₂ : Bytes} (h₁ : ∀ c ∈ digits₁, 48 ≤ c.toNat ∧ c.toNat ≤ 57)
    (h₂ : ∀ c ∈ digits₂, 48 ≤ c.toNat ∧ c.toNat ≤ 57) (h : rank digits₁ = rank digits₂) : digits₁ = digits₂ := by
  induction digits₁ generalizing digits₂ with
  | nil =>
    cases digits₂ with
    | nil => rfl
    | cons d₂ digits₂ =>
      rw [List.forall_mem_cons] at h₂
      rw [rank, rank] at h
      omega
  | cons d₁ digits₁ ih =>
    rw [List.forall_mem_cons] at h₁
    cases digits₂ with
    | nil =>
      rw [rank, rank] at h
      omega
    | cons d₂ digits₂ =>
      rw [List.forall_mem_cons] at h₂
      rw [rank, rank] at h
      -- the lowest digit counts from 1 to 10, so it is the rest of the division
      have hdigit : d₁.toNat = d₂.toNat := by omega
      have hrest : rank digits₁ = rank digits₂ := by omega
      rw [UInt8.toNat_inj.1 hdigit, ih h₁.2 h₂.2 hrest]

/-- The number of digit strings that are shorter, with the empty one. -/
def shorter : Nat → Nat
  | 0 => 0
  | n + 1 => shorter n + 10 ^ n

theorem shorter_succ (n : Nat) : shorter (n + 1) = 1 + 10 * shorter n := by
  induction n with
  | zero => rfl
  | succ n ih =>
    have hlast : shorter (n + 1) = shorter n + 10 ^ n := rfl
    rw [shorter, Nat.pow_succ]
    omega

theorem shorter_mono {m n : Nat} (h : m ≤ n) : shorter m ≤ shorter n :=
  monotone_nat_of_le_succ (fun n => Nat.le_add_right (shorter n) (10 ^ n)) h

theorem rank_range {digits : Bytes} (h : ∀ c ∈ digits, 48 ≤ c.toNat ∧ c.toNat ≤ 57) :
    shorter digits.length ≤ rank digits ∧ rank digits < shorter (digits.length + 1) := by
  induction digits with
  | nil => exact ⟨Nat.le_refl 0, Nat.one_pos⟩
  | cons d digits ih =>
    rw [List.forall_mem_cons] at h
    obtain ⟨hlow, hhigh⟩ := ih h.2
    rw [rank, List.length_cons, shorter_succ digits.length, shorter_succ (digits.length + 1)]
    omega

theorem length_eq_iff {digits : Bytes} (h : ∀ c ∈ digits, 48 ≤ c.toNat ∧ c.toNat ≤ 57) (n : Nat) :
    digits.length = n ↔ shorter n ≤ rank digits ∧ rank digits < shorter (n + 1) := by
  constructor
  · rintro rfl
    exact rank_range h
  · rintro ⟨hlow, hhigh⟩
    obtain ⟨hlow', hhigh'⟩ := rank_range h
    rcases Nat.lt_trichotomy digits.length n with hlt | heq | hgt
    · have hmono : shorter (digits.length + 1) ≤ shorter n := shorter_mono hlt
      omega
    · exact heq
    · have hmono : shorter (n + 1) ≤ shorter digits.length := shorter_mono hgt
      omega

namespace Guess

def first : Guess := ⟨lit "000", by decide +kernel⟩

def next (g : Guess) : Guess := ⟨nextDigits g.digits, nextDigits_isDigit g.isDigit⟩

def boundary (g : Guess) : Bytes := 45 :: 45 :: g.digits

end Guess

/-! ### The builder -/

inductive ElementType
  | textElement
  | contentTypeElement
  | boundaryElement
deriving DecidableEq

structure Element where
  text : Bytes
  type : ElementType
deriving DecidableEq

/-- `m_Base64Accumulator`, which is written as soon as there are 57 bytes in it. -/
structure Base64Accumulator where
  bytes : Bytes
  short : bytes.length < 57

def Base64Accumulator.empty : Base64Accumulator := ⟨[], by decide⟩

inductive BuilderState
  | header
  | body
deriving DecidableEq

structure MimeBuilder where
  content : List Element
  contentType : Bytes
  base64Accumulator : Base64Accumulator
  pendingCRLF : Bool
  state : BuilderState

namespace MimeBuilder

def CRLF : Bytes := [13, 10]

def quoteFieldName (name : Bytes) : Bytes := name.flatMap fun c => if c = 34 ∨ c = 92 then [92, c] else [c]

def create (ctype : Bytes) : MimeBuilder :=
  ⟨if ctype ≠ [] then [⟨[], .contentTypeElement⟩] else [], ctype, .empty, false, .header⟩

def push (b : MimeBuilder) (text : Bytes) : MimeBuilder := { b with content := b.content ++ [⟨text, .textElement⟩] }

def pushAll (b : MimeBuilder) (texts : List Bytes) : MimeBuilder := texts.foldl push b

def flushHeaderAndStartBody (b : MimeBuilder) : MimeBuilder :=
  match b.state with
  | .header => { b with state := .body }.push CRLF
  | .body => b

/-- `flushBase64`, given the bytes in the accumulator. -/
def flushBytes (b : MimeBuilder) (bytes : Bytes) : MimeBuilder :=
  let b := if bytes ≠ [] then { b with base64Accumulator := .empty }.push (Base64.encode bytes ++ CRLF) else b
  if b.pendingCRLF then { b with pendingCRLF := false }.push CRLF else b

def flushBase64 (b : MimeBuilder) : MimeBuilder := b.flushBytes b.base64Accumulator.bytes

def addHeader (b : MimeBuilder) (name value : Bytes) : MimeBuilder := b.push (name ++ [58, 32] ++ value ++ CRLF)

def addLine (b : MimeBuilder) (line : Bytes) : MimeBuilder := b.flushHeaderAndStartBody.push (line ++ CRLF)

/-- The loop of `addBase64`. -/
def fillBase64 (b : MimeBuilder) (data : Bytes) : MimeBuilder :=
  if _h : data = [] then b
  else
    let room := 57 - b.base64Accumulator.bytes.length
    let bytes := b.base64Accumulator.bytes ++ data.take room
    if hfull : bytes.length = 57 then fillBase64 (b.flushBytes bytes) (data.drop room)
    else
      have hshort : bytes.length < 57 := by
        have hshort := b.base64Accumulator.short
        have htake := List.length_take_le room data
        rw [List.length_append] at hfull ⊢
        omega
      fillBase64 { b with base64Accumulator := ⟨bytes, hshort⟩ } (data.drop room)
termination_by data.length
decreasing_by
  all_goals
    have hshort := b.base64Accumulator.short
    have hpos := List.length_pos_of_ne_nil _h
    rw [List.length_drop]
    omega

def addBase64 (b : MimeBuilder) (data : Bytes) : MimeBuilder := b.flushHeaderAndStartBody.fillBase64 data

/-- The texts that `addLineQP` adds. -/
def linesQP (line : Bytes) : List Bytes := (line.splitOn 10).map fun l => QuotedPrintable.encode l ++ CRLF

def addLineQP (b : MimeBuilder) (line : Bytes) : MimeBuilder := b.flushHeaderAndStartBody.pushAll (linesQP line)

/-- The texts that `addRawData` adds: it starts a new one after each newline. -/
def rawPieces : Bytes → List Bytes
  | [] => []
  | c :: data =>
    if c = 10 then [c] :: rawPieces data
    else
      match rawPieces data with
      | [] => [[c]]
      | piece :: pieces => (c :: piece) :: pieces

def addRawData (b : MimeBuilder) (data : Bytes) : MimeBuilder :=
  { b.flushHeaderAndStartBody.pushAll (rawPieces data) with pendingCRLF := true }

def addBoundary (b : MimeBuilder) : MimeBuilder :=
  if (b.content.getLast?).map Element.type = some .boundaryElement then b
  else
    let b := b.flushHeaderAndStartBody.flushBase64
    { b with content := b.content ++ [⟨[], .boundaryElement⟩], state := .header }

def addFormField (b : MimeBuilder) (name : Bytes) : MimeBuilder :=
  b.addBoundary.addHeader (lit "Content-Disposition") (lit "form-data; name=\"" ++ quoteFieldName name ++ lit "\"")

def addFormFieldValue (b : MimeBuilder) (name data : Bytes) : MimeBuilder :=
  ((b.addFormField name).addRawData data).addBoundary

def addFormFile (b : MimeBuilder) (name fileName : Bytes) : MimeBuilder :=
  b.addBoundary.addHeader (lit "Content-Disposition")
    (lit "form-data; name=\"" ++ quoteFieldName name ++ lit "\"; filename=\"" ++ quoteFieldName fileName ++ lit "\"")

def addFormFields (b : MimeBuilder) (tab : HeaderTable) : MimeBuilder :=
  tab.foldl (fun b f => b.addFormFieldValue f.name f.value) b

/-! ### Finishing -/

def inUse (content : List Element) (boundary : Bytes) : Bool := content.any fun e => boundary.isPrefixOf e.text

def totalSize (content : List Element) : Nat := (content.map fun e => e.text.length).sum

theorem length_le_of_inUse {content : List Element} {boundary : Bytes} (h : inUse content boundary = true) :
    boundary.length ≤ totalSize content := by
  obtain ⟨e, he, hstart⟩ := List.any_eq_true.1 h
  have hlength := (List.isPrefixOf_iff_prefix.1 hstart).length_le
  have hsum : e.text.length ≤ totalSize content := List.le_sum_of_mem (List.mem_map_of_mem he)
  omega

/-- The loop of `finish` that looks for a boundary. -/
def findBoundary (content : List Element) (g : Guess) : Guess :=
  if inUse content g.boundary then findBoundary content g.next else g
termination_by 2 * 10 ^ totalSize content - rank g.digits
decreasing_by
  have hnext : rank g.next.digits = rank g.digits + 1 := rank_nextDigits g.isDigit
  have hrank := rank_lt g.isDigit
  have hlength : g.digits.length ≤ totalSize content := by
    have hle := length_le_of_inUse ‹_›
    rw [Guess.boundary, List.length_cons, List.length_cons] at hle
    omega
  have hpow := Nat.pow_le_pow_right (show 10 > 0 by decide) hlength
  omega

/-- The texts that `finish` fills in; the last boundary is followed by two dashes. -/
def fillIn (contentType : Bytes) (boundary : Bytes) : List Element → List Element
  | [] => []
  | e :: content =>
    let text :=
      match e.type with
      | .textElement => e.text
      | .contentTypeElement =>
        lit "Content-Type: " ++ contentType ++ lit "; boundary=" ++ boundary.drop 2 ++ CRLF
      | .boundaryElement =>
        if content.any fun e => e.type = .boundaryElement then boundary ++ CRLF else boundary ++ [45, 45] ++ CRLF
    ⟨text, e.type⟩ :: fillIn contentType boundary content

/-- `finish`: the builder and the boundary that is returned. -/
def finish (b : MimeBuilder) : MimeBuilder × Bytes :=
  let boundary := (findBoundary b.content .first).boundary
  ({ b with content := fillIn b.contentType boundary b.content }, boundary.drop 2)

def writeElement (escapeDots : Bool) (e : Element) : Bytes :=
  if escapeDots && e.text.head? = some 46 then 46 :: e.text else e.text

def write (b : MimeBuilder) (escapeDots : Bool) : Bytes := b.content.flatMap (writeElement escapeDots)

/-! ### Texts -/

def text (t : Bytes) : Element := ⟨t, .textElement⟩

theorem pushAll_eq (b : MimeBuilder) (texts : List Bytes) :
    b.pushAll texts = { b with content := b.content ++ texts.map text } := by
  induction texts generalizing b with
  | nil => rw [List.map_nil, List.append_nil]; rfl
  | cons t texts ih =>
    have hstep : b.pushAll (t :: texts) = (b.push t).pushAll texts := rfl
    rw [hstep, ih, push, List.map_cons, List.append_assoc]
    rfl

theorem flatten_rawPieces (data : Bytes) : (rawPieces data).flatten = data := by
  induction data with
  | nil => rfl
  | cons c data ih =>
    rw [rawPieces]
    split_ifs
    · rw [List.flatten_cons, ih]
      rfl
    · split
      · next hnil =>
        rw [hnil] at ih
        rw [← ih]
        rfl
      · next piece pieces hcons =>
        rw [hcons] at ih
        rw [← ih]
        rfl

theorem not_inUse_findBoundary (content : List Element) (g : Guess) :
    inUse content (findBoundary content g).boundary = false := by
  fun_induction findBoundary content g with
  | case1 g hused ih => exact ih
  | case2 g hfree => exact Bool.not_eq_true _ ▸ hfree

theorem not_prefix_of_not_inUse {content : List Element} {boundary : Bytes} (h : inUse content boundary = false)
    {e : Element} (he : e ∈ content) : ¬boundary <+: e.text := by
  intro hstart
  have hall := List.any_eq_false.1 h e he
  exact hall (List.isPrefixOf_iff_prefix.2 hstart)

end MimeBuilder

end Afl.Net
