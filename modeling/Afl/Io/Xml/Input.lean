import Afl.Charset.Utf8
import Afl.Io.Stream.InternalStream
import Mathlib.Data.Bool.AllAny

/-!
# The characters of an XML document

The buffering and character handling of `afl/io/xml/reader.cpp`. The reader looks at one character at a time. At the
end of the document there is no current character any more, but the variable keeps the last one that was read.
`ahead` is the abstract view: the characters from the current one to the end.
-/

namespace Afl.Io.Xml

open Charset

/-- `Codepage`: the characters of the bytes from 0x80 on. -/
structure Codepage where
  characters : Fin 128 → UInt16

inductive Encoding
  | utf8
  | codepage
  | utf16LE
  | utf16BE
  deriving DecidableEq

/-- The members of `Reader` for buffering and character handling, with the stream it reads from. -/
structure Input where
  stream : InternalStream
  buffer : Bytes
  bufferPos : Nat
  encoding : Encoding
  codepage : Option Codepage
  haveCurrentCharacter : Bool
  currentCharacter : Unichar
  charPos : Nat

namespace Input

/-- The size of `m_bufferData`. -/
def bufferSize : Nat := 1024

def refillBuffer (i : Input) : Input :=
  let (out, stream) := i.stream.read bufferSize
  { i with buffer := out, stream := stream }

/-- `m_buffer.eat()`, with the position. -/
def eat (i : Input) : Option UInt8 × Input :=
  match i.buffer with
  | [] => (none, i)
  | a :: buffer => (some a, { i with buffer := buffer, bufferPos := i.bufferPos + 1 })

def readByte (i : Input) : Option UInt8 × Input :=
  match i.buffer with
  | [] => i.refillBuffer.eat
  | _ :: _ => i.eat

/-- A character has been read. -/
def found (i : Input) (ch : Unichar) : Input := { i with currentCharacter := ch, haveCurrentCharacter := true }

/-- There is no further character. The current one stays what it was. -/
def ended (i : Input) : Input := { i with haveCurrentCharacter := false }

/-- A byte in a codepage. -/
def mapped (codepage : Option Codepage) (a : UInt8) : Unichar :=
  match codepage with
  | some cp => if a ≥ 0x80 then (cp.characters (Fin.ofNat 128 (a.toNat - 0x80))).toUInt32 else a.toUInt32
  | none => a.toUInt32

def twoByteRune (a b : UInt8) : Unichar := ((a.toUInt32 &&& 0x1F) <<< 6) + (b.toUInt32 &&& 0x3F)

def threeByteRune (a b c : UInt8) : Unichar :=
  ((a.toUInt32 &&& 0x0F) <<< 12) + ((b.toUInt32 &&& 0x3F) <<< 6) + (c.toUInt32 &&& 0x3F)

/-- `if (!readByte(a)) m_haveCurrentCharacter = false; else ...`. -/
def withByte (i : Input) (f : UInt8 → Input → Input) : Input :=
  match i.readByte with
  | (none, i) => i.ended
  | (some a, i) => f a i

def readNextChar (i : Input) : Input :=
  let i := { i with charPos := i.bufferPos }
  match i.encoding with
  | .codepage => i.withByte fun a i => i.found (mapped i.codepage a)
  | .utf8 =>
    i.withByte fun a i =>
      if a ≥ 0xC0 ∧ a < 0xE0 then i.withByte fun b i => i.found (twoByteRune a b)
      else if a ≥ 0xE0 ∧ a < 0xF0 then
        i.withByte fun b i => i.withByte fun c i => i.found (threeByteRune a b c)
      else
        -- ASCII, and everything the reader takes for invalid
        i.found a.toUInt32
  | .utf16BE => i.withByte fun a i => i.withByte fun b i => i.found (256 * a.toUInt32 + b.toUInt32)
  | .utf16LE => i.withByte fun a i => i.withByte fun b i => i.found (256 * b.toUInt32 + a.toUInt32)

/-- The encoding, and how many bytes of the buffer are a byte order mark. -/
def detect : Bytes → Encoding × Nat
  | p0 :: p1 :: rest =>
    if p0 = 0xEF ∧ p1 = 0xBB ∧ rest.head? = some 0xBF then (.utf8, 3)
    else if p0 = 0xFE ∧ p1 = 0xFF then (.utf16BE, 2)
    else if p0 = 0xFF ∧ p1 = 0xFE then (.utf16LE, 2)
    else if p0 = 0 ∧ p1 ≠ 0 then (.utf16BE, 0)
    else if p0 ≠ 0 ∧ p1 = 0 then (.utf16LE, 0)
    else (.utf8, 0)
  | _ => (.utf8, 0)

/-- `detectEncoding`. The mark is taken from the buffer, and the position does not move. -/
def detectEncoding (i : Input) : Input :=
  let (encoding, mark) := detect i.buffer
  { i with encoding := encoding, buffer := i.buffer.drop mark }

def start (stream : InternalStream) : Input :=
  let i : Input :=
    { stream := stream, buffer := [], bufferPos := stream.getPos, encoding := .utf8, codepage := none,
      haveCurrentCharacter := false, currentCharacter := 0, charPos := 0 }
  i.refillBuffer.detectEncoding.readNextChar

/-- `Reader::setPos`, as far as the characters are concerned. -/
def setPos (i : Input) (pos : Nat) : Input :=
  { i with stream := i.stream.setPos pos, bufferPos := pos, charPos := pos, buffer := [] }.readNextChar

/-! ### The bytes that are left -/

def rest (i : Input) : Bytes := i.buffer ++ i.stream.data.drop i.stream.pos

/-- What reading a byte leaves alone. -/
structure Same (i j : Input) : Prop where
  encoding : j.encoding = i.encoding
  codepage : j.codepage = i.codepage
  currentCharacter : j.currentCharacter = i.currentCharacter

variable {i : Input}

theorem rest_refillBuffer (h : i.buffer = []) : i.refillBuffer.rest = i.rest := by
  simp only [rest, refillBuffer, InternalStream.read, h, List.nil_append, ← List.drop_drop, List.length_take]
  generalize i.stream.data.drop i.stream.pos = data
  rcases Nat.le_total bufferSize data.length with hle | hle
  · rw [Nat.min_eq_left hle, List.take_append_drop]
  · rw [Nat.min_eq_right hle, List.take_of_length_le hle, List.drop_length, List.append_nil]

theorem buffer_refillBuffer (h : i.buffer = []) : i.refillBuffer.buffer = i.rest.take bufferSize := by
  rw [rest, h]
  rfl

theorem readByte_nil (h : i.rest = []) : ∃ j, i.readByte = (none, j) ∧ j.rest = [] ∧ Same i j := by
  have hbuffer : i.buffer = [] := (List.append_eq_nil_iff.mp h).1
  have hrefill : i.refillBuffer.buffer = [] := by
    rw [buffer_refillBuffer hbuffer, h]
    rfl
  refine ⟨i.refillBuffer, ?_, ?_, rfl, rfl, rfl⟩
  · simp only [readByte, hbuffer, eat, hrefill]
  · rw [rest_refillBuffer hbuffer, h]

theorem readByte_cons {a : UInt8} {r : Bytes} (h : i.rest = a :: r) :
    ∃ j, i.readByte = (some a, j) ∧ j.rest = r ∧ Same i j := by
  cases hbuffer : i.buffer with
  | nil =>
    have hrefill : i.refillBuffer.buffer = a :: r.take (bufferSize - 1) := by
      rw [buffer_refillBuffer hbuffer, h]
      rfl
    have hrest : i.refillBuffer.rest = a :: r := by
      rw [rest_refillBuffer hbuffer, h]
    refine ⟨{ i.refillBuffer with buffer := r.take (bufferSize - 1), bufferPos := i.bufferPos + 1 }, ?_, ?_, rfl, rfl, rfl⟩
    · simp only [readByte, hbuffer, eat, hrefill]
      rfl
    · rw [rest, hrefill] at hrest
      exact (List.cons.inj hrest).2
  | cons b buffer =>
    rw [rest, hbuffer, List.cons_append] at h
    obtain ⟨rfl, hr⟩ := List.cons.inj h
    refine ⟨{ i with buffer := buffer, bufferPos := i.bufferPos + 1 }, ?_, hr, rfl, rfl, rfl⟩
    simp only [readByte, hbuffer, eat]

/-! ### The characters of the bytes -/

/-- A first byte and what is made of it. -/
def withHead (data : Bytes) (f : UInt8 → Bytes → Option (Unichar × Bytes)) : Option (Unichar × Bytes) :=
  match data with
  | [] => none
  | a :: r => f a r

def nextChar (encoding : Encoding) (codepage : Option Codepage) (data : Bytes) : Option (Unichar × Bytes) :=
  match encoding with
  | .codepage => withHead data fun a r => some (mapped codepage a, r)
  | .utf8 =>
    withHead data fun a r =>
      if a ≥ 0xC0 ∧ a < 0xE0 then withHead r fun b r => some (twoByteRune a b, r)
      else if a ≥ 0xE0 ∧ a < 0xF0 then
        withHead r fun b r => withHead r fun c r => some (threeByteRune a b c, r)
      else some (a.toUInt32, r)
  | .utf16BE => withHead data fun a r => withHead r fun b r => some (256 * a.toUInt32 + b.toUInt32, r)
  | .utf16LE => withHead data fun a r => withHead r fun b r => some (256 * b.toUInt32 + a.toUInt32, r)

/-- What a call of `readNextChar` does, by the character it finds. -/
def Advances (i : Input) (next : Option (Unichar × Bytes)) (j : Input) : Prop :=
  j.encoding = i.encoding ∧ j.codepage = i.codepage ∧
    match next with
    | none => j.haveCurrentCharacter = false ∧ j.currentCharacter = i.currentCharacter ∧ j.rest = []
    | some (ch, r) => j.haveCurrentCharacter = true ∧ j.currentCharacter = ch ∧ j.rest = r

theorem Advances.of_same {i j k : Input} {next : Option (Unichar × Bytes)} (hij : Same i j) (h : Advances j next k) :
    Advances i next k := by
  obtain ⟨hencoding, hcodepage, hnext⟩ := h
  refine ⟨hencoding.trans hij.encoding, hcodepage.trans hij.codepage, ?_⟩
  cases next with
  | none => exact ⟨hnext.1, hnext.2.1.trans hij.currentCharacter, hnext.2.2⟩
  | some next => exact hnext

theorem advances_ended (h : i.rest = []) : Advances i none i.ended := ⟨rfl, rfl, rfl, rfl, h⟩

theorem advances_found (i : Input) (ch : Unichar) : Advances i (some (ch, i.rest)) (i.found ch) :=
  ⟨rfl, rfl, rfl, rfl, rfl⟩

theorem withByte_advances {f : UInt8 → Input → Input} {g : UInt8 → Bytes → Option (Unichar × Bytes)}
    (h : ∀ a j, Same i j → Advances j (g a j.rest) (f a j)) : Advances i (withHead i.rest g) (i.withByte f) := by
  cases hrest : i.rest with
  | nil =>
    obtain ⟨j, hread, hnil, hsame⟩ := readByte_nil hrest
    rw [withByte, hread]
    exact (advances_ended hnil).of_same hsame
  | cons a r =>
    obtain ⟨j, hread, hr, hsame⟩ := readByte_cons hrest
    have hnext := h a j hsame
    rw [hr] at hnext
    rw [withByte, hread]
    exact hnext.of_same hsame

/-- What `readNextChar` does is a matter of the bytes that are left, not of how they are buffered. -/
theorem readNextChar_advances (i : Input) : Advances i (nextChar i.encoding i.codepage i.rest) i.readNextChar := by
  have hpos : Same i { i with charPos := i.bufferPos } := ⟨rfl, rfl, rfl⟩
  suffices h : Advances { i with charPos := i.bufferPos } (nextChar i.encoding i.codepage i.rest) i.readNextChar from
    h.of_same hpos
  unfold readNextChar nextChar
  cases hencoding : i.encoding with
  | codepage =>
    apply withByte_advances
    intro a j hsame
    have hcodepage : j.codepage = i.codepage := hsame.codepage
    rw [hcodepage]
    exact advances_found j _
  | utf8 =>
    apply withByte_advances
    intro a j _
    split_ifs
    · exact withByte_advances fun b k _ => advances_found k _
    · exact withByte_advances fun b k _ => withByte_advances fun c l _ => advances_found l _
    · exact advances_found j _
  | utf16BE => exact withByte_advances fun a j _ => withByte_advances fun b k _ => advances_found k _
  | utf16LE => exact withByte_advances fun a j _ => withByte_advances fun b k _ => advances_found k _

theorem length_withHead_lt {data r : Bytes} {f : UInt8 → Bytes → Option (Unichar × Bytes)} {ch : Unichar}
    (hf : ∀ a r' ch r, f a r' = some (ch, r) → r.length ≤ r'.length) (h : withHead data f = some (ch, r)) :
    r.length < data.length := by
  cases data with
  | nil => cases h
  | cons a data => exact Nat.lt_succ_of_le (hf a data ch r h)

theorem length_nextChar_lt {encoding : Encoding} {codepage : Option Codepage} {data r : Bytes} {ch : Unichar}
    (h : nextChar encoding codepage data = some (ch, r)) : r.length < data.length := by
  have hsome : ∀ {r' r : Bytes} {x ch : Unichar}, some (x, r') = some (ch, r) → r.length ≤ r'.length := by
    rintro r' r x ch h
    cases h
    exact Nat.le_refl _
  have hone : ∀ {r' r : Bytes} {f : UInt8 → Unichar} {ch : Unichar},
      (withHead r' fun b r => some (f b, r)) = some (ch, r) → r.length ≤ r'.length := fun h =>
    (length_withHead_lt (fun _ _ _ _ => hsome) h).le
  unfold nextChar at h
  cases encoding with
  | codepage => exact length_withHead_lt (fun _ _ _ _ => hsome) h
  | utf16BE => exact length_withHead_lt (fun _ _ _ _ => hone) h
  | utf16LE => exact length_withHead_lt (fun _ _ _ _ => hone) h
  | utf8 =>
    refine length_withHead_lt (fun a r' ch r hnext => ?_) h
    split_ifs at hnext
    · exact hone hnext
    · exact (length_withHead_lt (fun _ _ _ _ => hone) hnext).le
    · exact hsome hnext

/-- The characters of some bytes, up to the end or an incomplete one. -/
def decode (encoding : Encoding) (codepage : Option Codepage) (data : Bytes) : List Unichar :=
  match _h : nextChar encoding codepage data with
  | none => []
  | some (ch, r) => ch :: decode encoding codepage r
termination_by data.length
decreasing_by exact length_nextChar_lt _h

theorem decode_none {encoding : Encoding} {codepage : Option Codepage} {data : Bytes}
    (h : nextChar encoding codepage data = none) : decode encoding codepage data = [] := by
  rw [decode]
  split
  · rfl
  · next hsome => cases h.symm.trans hsome

theorem decode_some {encoding : Encoding} {codepage : Option Codepage} {data r : Bytes} {ch : Unichar}
    (h : nextChar encoding codepage data = some (ch, r)) :
    decode encoding codepage data = ch :: decode encoding codepage r := by
  rw [decode]
  split
  · next hnone => cases hnone.symm.trans h
  · next hsome =>
    cases hsome.symm.trans h
    rfl

/-! ### The characters ahead -/

def following (i : Input) : List Unichar := decode i.encoding i.codepage i.rest

/-- The current character and those after it. -/
def ahead (i : Input) : List Unichar := if i.haveCurrentCharacter then i.currentCharacter :: i.following else []

/-- The value that the variable for the current character has at the end of the document. -/
def lastCharacter (i : Input) : Unichar := i.following.getLastD i.currentCharacter

/-- There is a current character unless everything has been read. -/
def Settled (i : Input) : Prop := i.haveCurrentCharacter = false → i.rest = []

def left (i : Input) : Nat := i.rest.length + i.haveCurrentCharacter.toNat

variable {i j k : Input} {cs cs' : List Unichar} {ch : Unichar}

theorem ahead_eq_cons : i.ahead = ch :: cs ↔
    i.haveCurrentCharacter = true ∧ i.currentCharacter = ch ∧ i.following = cs := by
  unfold ahead
  split_ifs with h
  · rw [List.cons.injEq]
    exact ⟨fun hc => ⟨h, hc⟩, And.right⟩
  · exact ⟨fun hc => (by cases hc), fun hc => absurd hc.1 h⟩

theorem ahead_eq_nil : i.ahead = [] ↔ i.haveCurrentCharacter = false := by
  unfold ahead
  split_ifs with h
  · simp [h]
  · simpa using h

theorem following_eq_nil (h : i.rest = []) : i.following = [] := by
  rw [following, h]
  exact decode_none (by cases i.encoding <;> rfl)

theorem Settled.lastCharacter_eq (hi : i.Settled) (h : i.ahead = []) : i.lastCharacter = i.currentCharacter := by
  rw [lastCharacter, following_eq_nil (hi (ahead_eq_nil.mp h))]
  rfl

theorem readNextChar_encoding (i : Input) : i.readNextChar.encoding = i.encoding := (readNextChar_advances i).1

theorem readNextChar_codepage (i : Input) : i.readNextChar.codepage = i.codepage := (readNextChar_advances i).2.1

theorem readNextChar_cases (i : Input) :
    (i.following = [] ∧ i.readNextChar.haveCurrentCharacter = false ∧
        i.readNextChar.currentCharacter = i.currentCharacter ∧ i.readNextChar.rest = []) ∨
      (i.following = i.readNextChar.currentCharacter :: i.readNextChar.following ∧
        i.readNextChar.haveCurrentCharacter = true ∧ i.readNextChar.rest.length < i.rest.length) := by
  obtain ⟨hencoding, hcodepage, hnext⟩ := readNextChar_advances i
  split at hnext
  · next hnone => exact .inl ⟨decode_none hnone, hnext⟩
  · next ch r hsome =>
    obtain ⟨hhave, hch, hrest⟩ := hnext
    have hfollowing : i.readNextChar.following = decode i.encoding i.codepage r := by
      rw [following, hencoding, hcodepage, hrest]
    refine .inr ⟨?_, hhave, ?_⟩
    · rw [hch, hfollowing]
      exact decode_some hsome
    · rw [hrest]
      exact length_nextChar_lt hsome

theorem readNextChar_settled (i : Input) : i.readNextChar.Settled := by
  intro hended
  obtain ⟨-, -, -, hrest⟩ | ⟨-, hhave, -⟩ := readNextChar_cases i
  · exact hrest
  · cases hended.symm.trans hhave

theorem readNextChar_ahead (i : Input) : i.readNextChar.ahead = i.following := by
  obtain ⟨hnil, hended, -, -⟩ | ⟨hcons, hhave, -⟩ := readNextChar_cases i
  · rw [ahead_eq_nil.mpr hended, hnil]
  · rw [hcons]
    exact ahead_eq_cons.mpr ⟨hhave, rfl, rfl⟩

theorem readNextChar_lastCharacter (i : Input) : i.readNextChar.lastCharacter = i.lastCharacter := by
  obtain ⟨hnil, -, hch, hrest⟩ | ⟨hcons, -, -⟩ := readNextChar_cases i
  · rw [lastCharacter, lastCharacter, following_eq_nil hrest, hnil, hch]
  · rw [lastCharacter, lastCharacter, hcons]
    exact List.getLastD_cons.symm

theorem left_readNextChar_le (i : Input) : i.readNextChar.left ≤ i.left := by
  unfold left
  obtain ⟨-, hended, -, hrest⟩ | ⟨-, hhave, hlt⟩ := readNextChar_cases i
  · rw [hended, hrest]
    exact Nat.zero_le _
  · rw [hhave]
    exact Nat.le_add_right_of_le hlt

theorem left_readNextChar_lt (h : i.haveCurrentCharacter = true) : i.readNextChar.left < i.left := by
  unfold left
  rw [h]
  obtain ⟨-, hended, -, hrest⟩ | ⟨-, hhave, hlt⟩ := readNextChar_cases i
  · rw [hended, hrest]
    exact Nat.zero_lt_succ _
  · rw [hhave]
    exact Nat.add_lt_add_right hlt 1

theorem length_decode_le (encoding : Encoding) (codepage : Option Codepage) (data : Bytes) :
    (decode encoding codepage data).length ≤ data.length := by
  fun_induction decode encoding codepage data with
  | case1 data hnone => exact Nat.zero_le _
  | case2 data ch r hsome ih => exact Nat.lt_of_le_of_lt ih (length_nextChar_lt hsome)

theorem length_ahead_le (i : Input) : i.ahead.length ≤ i.left := by
  have hle := length_decode_le i.encoding i.codepage i.rest
  unfold ahead left
  split_ifs with h
  · rw [h]
    exact Nat.succ_le_succ hle
  · exact Nat.zero_le _

theorem lastCharacter_of_cons (h : i.ahead = ch :: cs) : i.lastCharacter = cs.getLastD ch := by
  obtain ⟨-, hch, hcs⟩ := ahead_eq_cons.mp h
  rw [lastCharacter, hch, hcs]

/-- A state of the input further on in the same document, with these characters ahead. -/
structure Reaches (i : Input) (cs : List Unichar) (j : Input) : Prop where
  encoding : j.encoding = i.encoding
  codepage : j.codepage = i.codepage
  lastCharacter : j.lastCharacter = i.lastCharacter
  settled : j.Settled
  ahead : j.ahead = cs
  left_le : j.left ≤ i.left
  nearer : cs = i.ahead ∨ j.left < i.left

theorem Reaches.refl (hi : i.Settled) : Reaches i i.ahead i := ⟨rfl, rfl, rfl, hi, rfl, Nat.le_refl _, .inl rfl⟩

theorem Reaches.trans (hij : Reaches i cs j) (hjk : Reaches j cs' k) : Reaches i cs' k := by
  refine ⟨hjk.encoding.trans hij.encoding, hjk.codepage.trans hij.codepage, hjk.lastCharacter.trans hij.lastCharacter,
    hjk.settled, hjk.ahead, hjk.left_le.trans hij.left_le, ?_⟩
  rcases hjk.nearer with hsame | hlt
  · rcases hij.nearer with hsame' | hlt
    · exact .inl (hsame.trans (hij.ahead.trans hsame'))
    · exact .inr (hjk.left_le.trans_lt hlt)
  · exact .inr (hlt.trans_le hij.left_le)

theorem readNextChar_reaches (hi : i.Settled) : Reaches i i.ahead.tail i.readNextChar := by
  have htail : i.ahead.tail = i.following := by
    cases h : i.ahead with
    | nil => exact (following_eq_nil (hi (ahead_eq_nil.mp h))).symm
    | cons ch cs => exact (ahead_eq_cons.mp h).2.2.symm
  have hnearer : i.ahead.tail = i.ahead ∨ i.readNextChar.left < i.left := by
    cases hhave : i.haveCurrentCharacter with
    | false => exact .inl (by rw [ahead_eq_nil.mpr hhave]; rfl)
    | true => exact .inr (left_readNextChar_lt hhave)
  exact ⟨readNextChar_encoding i, readNextChar_codepage i, readNextChar_lastCharacter i, readNextChar_settled i,
    (readNextChar_ahead i).trans htail.symm, left_readNextChar_le i, hnearer⟩

theorem readNextChar_cons (hi : i.Settled) (h : i.ahead = ch :: cs) : Reaches i cs i.readNextChar := by
  have hreaches := readNextChar_reaches hi
  rwa [h] at hreaches

/-! ### Character classes -/

def whitespaceChar : UInt32 := 1

def ltChar : UInt32 := 2

def gtChar : UInt32 := 4

def eqChar : UInt32 := 8

def bangChar : UInt32 := 16

def quesChar : UInt32 := 32

def slashChar : UInt32 := 64

def minusChar : UInt32 := 128

def lBracketChar : UInt32 := 256

def anyChar : UInt32 := 512

/-- The option of `readCharacterSequence` to process quotes. It is a bit like the classes, so the complement of some
classes contains it. -/
def processQuotes : UInt32 := 16384

def isWhitespace (ch : Unichar) : Bool := ch ≤ 0x20 || ch == 0x85 || ch == 0x2028

def charClass (ch : Unichar) : UInt32 :=
  if isWhitespace ch then whitespaceChar
  else if ch = 60 then ltChar
  else if ch = 62 then gtChar
  else if ch = 61 then eqChar
  else if ch = 33 then bangChar
  else if ch = 63 then quesChar
  else if ch = 47 then slashChar
  else if ch = 45 then minusChar
  else if ch = 91 then lBracketChar
  else anyChar

/-- The loop of `readCharacterSequence`: the number of characters read, what is appended to the string, and the
input after them. -/
def sequenceLoop (acceptClasses : UInt32) (currentQuote : Unichar) (i : Input) : Nat × Bytes × Input :=
  if i.haveCurrentCharacter = true then
    let ch := i.currentCharacter
    if currentQuote ≠ 0 ∧ ch = currentQuote then sequenceLoop acceptClasses 0 i.readNextChar
    else if hasFlag acceptClasses processQuotes ∧ currentQuote = 0 ∧ (ch = 34 ∨ ch = 39) then
      sequenceLoop acceptClasses ch i.readNextChar
    else if hasFlag acceptClasses (charClass ch) ∨ currentQuote ≠ 0 then
      let (count, accum, i) := sequenceLoop acceptClasses currentQuote i.readNextChar
      (count + 1, Utf8.append 0 ch ++ accum, i)
    else (0, [], i)
  else (0, [], i)
termination_by i.left
decreasing_by all_goals exact left_readNextChar_lt ‹_›

def readCharacterSequence (acceptClasses : UInt32) (i : Input) : Nat × Bytes × Input :=
  sequenceLoop acceptClasses 0 i

/-- The loop of `readUnparsedCharacterData`. -/
def unparsedLoop (numRBrack : Nat) (i : Input) : Bytes × Input :=
  if i.haveCurrentCharacter = true then
    let ch := i.currentCharacter
    if numRBrack = 0 then
      if ch = 93 then unparsedLoop 1 i.readNextChar
      else
        let (out, i) := unparsedLoop 0 i.readNextChar
        (Utf8.append 0 ch ++ out, i)
    else if numRBrack = 1 then
      if ch = 93 then unparsedLoop 2 i.readNextChar
      else
        -- a single bracket belongs to the text
        let (out, i) := unparsedLoop 0 i.readNextChar
        ([93] ++ Utf8.append 0 ch ++ out, i)
    else if ch = 62 then ([], i.readNextChar)
    else if ch = 93 then
      -- of three brackets at least one belongs to the text
      let (out, i) := unparsedLoop 2 i.readNextChar
      ([93] ++ out, i)
    else
      let (out, i) := unparsedLoop 0 i.readNextChar
      ([93, 93] ++ Utf8.append 0 ch ++ out, i)
  else ([], i)
termination_by i.left
decreasing_by all_goals exact left_readNextChar_lt ‹_›

def readUnparsedCharacterData (i : Input) : Bytes × Input := unparsedLoop 0 i

/-! ### Sequences of characters -/

/-- `sequenceLoop` over the characters ahead: those that are accepted, and those that are left. -/
def sequence (acceptClasses : UInt32) (currentQuote : Unichar) : List Unichar → List Unichar × List Unichar
  | [] => ([], [])
  | ch :: cs =>
    if currentQuote ≠ 0 ∧ ch = currentQuote then sequence acceptClasses 0 cs
    else if hasFlag acceptClasses processQuotes ∧ currentQuote = 0 ∧ (ch = 34 ∨ ch = 39) then
      sequence acceptClasses ch cs
    else if hasFlag acceptClasses (charClass ch) ∨ currentQuote ≠ 0 then
      (ch :: (sequence acceptClasses currentQuote cs).1, (sequence acceptClasses currentQuote cs).2)
    else ([], ch :: cs)

theorem sequence_cons (acceptClasses : UInt32) (currentQuote ch : Unichar) (cs : List Unichar) :
    sequence acceptClasses currentQuote (ch :: cs) =
      if currentQuote ≠ 0 ∧ ch = currentQuote then sequence acceptClasses 0 cs
      else if hasFlag acceptClasses processQuotes ∧ currentQuote = 0 ∧ (ch = 34 ∨ ch = 39) then
        sequence acceptClasses ch cs
      else if hasFlag acceptClasses (charClass ch) ∨ currentQuote ≠ 0 then
        (ch :: (sequence acceptClasses currentQuote cs).1, (sequence acceptClasses currentQuote cs).2)
      else ([], ch :: cs) := rfl

theorem sequenceLoop_reaches (acceptClasses : UInt32) (currentQuote : Unichar) (hi : i.Settled) (h : i.ahead = cs) :
    ∃ j, sequenceLoop acceptClasses currentQuote i =
        ((sequence acceptClasses currentQuote cs).1.length,
          Utf8.appendAll 0 (sequence acceptClasses currentQuote cs).1, j) ∧
      Reaches i (sequence acceptClasses currentQuote cs).2 j := by
  induction cs generalizing i currentQuote with
  | nil =>
    have hended := ahead_eq_nil.mp h
    refine ⟨i, ?_, ?_⟩
    · rw [sequenceLoop, hended]
      rfl
    · have hrefl := Reaches.refl hi
      rw [h] at hrefl
      exact hrefl
  | cons ch cs ih =>
    obtain ⟨hhave, hch, -⟩ := ahead_eq_cons.mp h
    have hnext := readNextChar_cons hi h
    rw [sequenceLoop, if_pos hhave, hch, sequence_cons]
    simp only
    split_ifs
    · obtain ⟨j, hloop, hreaches⟩ := ih 0 hnext.settled hnext.ahead
      exact ⟨j, hloop, hnext.trans hreaches⟩
    · obtain ⟨j, hloop, hreaches⟩ := ih ch hnext.settled hnext.ahead
      exact ⟨j, hloop, hnext.trans hreaches⟩
    · obtain ⟨j, hloop, hreaches⟩ := ih currentQuote hnext.settled hnext.ahead
      refine ⟨j, ?_, hnext.trans hreaches⟩
      rw [hloop]
      rfl
    · refine ⟨i, rfl, ?_⟩
      rw [← h]
      exact Reaches.refl hi

/-- **Sequences.** `readCharacterSequence` reads what `sequence` accepts and stops before the rest. -/
theorem readCharacterSequence_reaches (acceptClasses : UInt32) (hi : i.Settled) :
    ∃ j, i.readCharacterSequence acceptClasses =
        ((sequence acceptClasses 0 i.ahead).1.length, Utf8.appendAll 0 (sequence acceptClasses 0 i.ahead).1, j) ∧
      Reaches i (sequence acceptClasses 0 i.ahead).2 j :=
  sequenceLoop_reaches acceptClasses 0 hi rfl

theorem sequence_suffix (acceptClasses : UInt32) (currentQuote : Unichar) (cs : List Unichar) :
    (sequence acceptClasses currentQuote cs).2 <:+ cs := by
  induction cs generalizing currentQuote with
  | nil => exact List.suffix_refl []
  | cons ch cs ih =>
    rw [sequence_cons]
    split_ifs
    · exact (ih 0).trans (List.suffix_cons ch cs)
    · exact (ih ch).trans (List.suffix_cons ch cs)
    · exact (ih currentQuote).trans (List.suffix_cons ch cs)
    · exact List.suffix_refl _

variable {acceptClasses : UInt32}

theorem sequence_consumes (h : hasFlag acceptClasses (charClass ch) = true)
    (cs : List Unichar) : (sequence acceptClasses 0 (ch :: cs)).2 <:+ cs := by
  rw [sequence_cons]
  split_ifs with hquote hquotes haccept
  · exact sequence_suffix _ _ _
  · exact sequence_suffix _ _ _
  · exact sequence_suffix _ _ _
  · exact absurd (Or.inl h) haccept

theorem sequence_of_not (h : hasFlag acceptClasses (charClass ch) = false)
    (hquote : ch ≠ 34 ∧ ch ≠ 39) (cs : List Unichar) : sequence acceptClasses 0 (ch :: cs) = ([], ch :: cs) := by
  rw [sequence_cons, if_neg (by simp), if_neg (by simp [hquote]), if_neg (by simp [h])]

theorem sequence_stops {currentQuote : Unichar}
    (h : (sequence acceptClasses currentQuote cs).2 = ch :: cs') : hasFlag acceptClasses (charClass ch) = false := by
  induction cs generalizing currentQuote with
  | nil => cases h
  | cons c cs ih =>
    rw [sequence_cons] at h
    split_ifs at h with hquote hquotes haccept
    · exact ih h
    · exact ih h
    · exact ih h
    · obtain ⟨rfl, -⟩ := List.cons.inj h
      exact Bool.eq_false_iff.mpr fun hflag => haccept (.inl hflag)

theorem sequence_eq_span (h : hasFlag acceptClasses processQuotes = false) (cs : List Unichar) :
    sequence acceptClasses 0 cs =
      (cs.takeWhile fun ch => hasFlag acceptClasses (charClass ch),
        cs.dropWhile fun ch => hasFlag acceptClasses (charClass ch)) := by
  induction cs with
  | nil => rfl
  | cons ch cs ih =>
    rw [sequence_cons, if_neg (by simp), if_neg (by simp [h]), ih]
    cases haccept : hasFlag acceptClasses (charClass ch) with
    | false => simp [haccept]
    | true => simp [haccept]

variable {text : List Unichar}

theorem sequence_append (htext : ∀ c ∈ text, hasFlag acceptClasses (charClass c) = true ∧ c ≠ 34 ∧ c ≠ 39)
    (h : hasFlag acceptClasses (charClass ch) = false) (hquote : ch ≠ 34 ∧ ch ≠ 39) :
    sequence acceptClasses 0 (text ++ ch :: cs) = (text, ch :: cs) := by
  induction text with
  | nil => exact sequence_of_not h hquote cs
  | cons c text ih =>
    obtain ⟨⟨haccept, hc⟩, hrest⟩ := List.forall_mem_cons.mp htext
    rw [List.cons_append, sequence_cons, if_neg (by simp), if_neg (by simp [hc]), if_pos (.inl haccept), ih hrest]

theorem sequence_quoted_append (htext : 34 ∉ text) :
    sequence acceptClasses 34 (text ++ 34 :: cs) =
      (text ++ (sequence acceptClasses 0 cs).1, (sequence acceptClasses 0 cs).2) := by
  induction text with
  | nil => rw [List.nil_append, sequence_cons, if_pos ⟨by decide, rfl⟩, List.nil_append]
  | cons c text ih =>
    have hc : c ≠ 34 := fun h => htext (h ▸ List.mem_cons_self)
    rw [List.cons_append, sequence_cons, if_neg fun h => hc h.2, if_neg fun h => absurd h.2.1 (by decide),
      if_pos (.inr (by decide)), ih fun h => htext (List.mem_cons_of_mem c h)]
    rfl

theorem sequence_quoted (hquotes : hasFlag acceptClasses processQuotes = true) (htext : 34 ∉ text)
    (h : hasFlag acceptClasses (charClass ch) = false) (hquote : ch ≠ 34 ∧ ch ≠ 39) :
    sequence acceptClasses 0 (34 :: (text ++ 34 :: ch :: cs)) = (text, ch :: cs) := by
  rw [sequence_cons, if_neg (by simp), if_pos ⟨hquotes, rfl, .inl rfl⟩, sequence_quoted_append htext,
    sequence_of_not h hquote, List.append_nil]

/-! ### The classes that are used -/

def markup : List (Unichar × UInt32) :=
  [(60, ltChar), (62, gtChar), (61, eqChar), (33, bangChar), (63, quesChar), (47, slashChar), (45, minusChar),
    (91, lBracketChar)]

theorem charClass_cases (ch : Unichar) :
    isWhitespace ch = true ∧ charClass ch = whitespaceChar ∨ (ch, charClass ch) ∈ markup ∨
      isWhitespace ch = false ∧ (∀ m ∈ markup, ch ≠ m.1) ∧ charClass ch = anyChar := by
  rw [charClass]
  cases hspace : isWhitespace ch with
  | true => exact .inl ⟨rfl, if_pos rfl⟩
  | false =>
    rw [if_neg Bool.false_ne_true]
    right
    split_ifs with h60 h62 h61 h33 h63 h47 h45 h91
    on_goal 9 =>
      refine .inr ⟨rfl, ?_, rfl⟩
      simp only [markup, List.forall_mem_cons, List.not_mem_nil, false_implies, implies_true, and_true]
      exact ⟨h60, h62, h61, h33, h63, h47, h45, h91⟩
    all_goals
      left
      subst ch
      decide

theorem hasFlag_charClass {p : Unichar → Bool} (ch : Unichar)
    (hspace : isWhitespace ch = true → p ch = hasFlag acceptClasses whitespaceChar)
    (hmarkup : ∀ m ∈ markup, p m.1 = hasFlag acceptClasses m.2)
    (hany : isWhitespace ch = false → (∀ m ∈ markup, ch ≠ m.1) → p ch = hasFlag acceptClasses anyChar) :
    hasFlag acceptClasses (charClass ch) = p ch := by
  rcases charClass_cases ch with ⟨h, hclass⟩ | h | ⟨h, hch, hclass⟩
  · rw [hclass, hspace h]
  · exact (hmarkup _ h).symm
  · rw [hclass, hany h hch]

theorem ne_of_isWhitespace {c : Unichar} (h : isWhitespace ch = true) (hc : isWhitespace c = false) : ch ≠ c := by
  rintro rfl
  cases h.symm.trans hc

theorem hasFlag_whitespaceChar (ch : Unichar) : hasFlag whitespaceChar (charClass ch) = isWhitespace ch :=
  hasFlag_charClass ch id (List.all_iff_forall_prop.mp (by decide)) fun h _ => h

theorem hasFlag_minusChar (ch : Unichar) : hasFlag minusChar (charClass ch) = decide (ch = 45) :=
  hasFlag_charClass (p := fun ch => decide (ch = 45)) ch (fun h => decide_eq_false (ne_of_isWhitespace h rfl))
    (List.all_iff_forall_prop.mp (by decide)) fun _ h => decide_eq_false (h (45, minusChar) (by decide))

theorem hasFlag_not_minusChar (ch : Unichar) :
    hasFlag (~~~(minusChar ||| processQuotes)) (charClass ch) = decide (ch ≠ 45) :=
  hasFlag_charClass (p := fun ch => decide (ch ≠ 45)) ch (fun h => decide_eq_true (ne_of_isWhitespace h rfl))
    (List.all_iff_forall_prop.mp (by decide)) fun _ h => decide_eq_true (h (45, minusChar) (by decide))

theorem sequence_whitespaceChar (cs : List Unichar) :
    sequence whitespaceChar 0 cs = (cs.takeWhile isWhitespace, cs.dropWhile isWhitespace) := by
  rw [sequence_eq_span (by decide)]
  simp only [hasFlag_whitespaceChar]

theorem sequence_minusChar (cs : List Unichar) :
    sequence minusChar 0 cs = (cs.takeWhile (· = 45), cs.dropWhile (· = 45)) := by
  rw [sequence_eq_span (by decide)]
  simp only [hasFlag_minusChar]

theorem hasFlag_not_ltChar (hlt : ch ≠ 60) : hasFlag (~~~(ltChar ||| processQuotes)) (charClass ch) = true := by
  have hflag : hasFlag (~~~(ltChar ||| processQuotes)) (charClass ch) = decide (ch ≠ 60) :=
    hasFlag_charClass (p := fun ch => decide (ch ≠ 60)) ch (fun h => decide_eq_true (ne_of_isWhitespace h rfl))
      (List.all_iff_forall_prop.mp (by decide)) fun _ h => decide_eq_true (h (60, ltChar) (by decide))
  rw [hflag]
  exact decide_eq_true hlt

theorem sequence_text (htext : 60 ∉ text) (hcs : ∀ c ∈ cs.head?, c = 60) :
    sequence (~~~(ltChar ||| processQuotes)) 0 (text ++ cs) = (text, cs) := by
  have haccept : ∀ c ∈ text, hasFlag (~~~(ltChar ||| processQuotes)) (charClass c) = true := fun c hc =>
    hasFlag_not_ltChar fun h => htext (h ▸ hc)
  rw [sequence_eq_span (by decide), List.takeWhile_append_of_pos haccept, List.dropWhile_append_of_pos haccept]
  cases cs with
  | nil => rw [List.takeWhile_nil, List.dropWhile_nil, List.append_nil]
  | cons c cs =>
    obtain rfl : c = 60 := hcs c rfl
    rw [List.takeWhile_cons_of_neg (by decide), List.dropWhile_cons_of_neg (by decide), List.append_nil]

theorem hasFlag_attributeName (hspace : ¬isWhitespace ch = true) (heq : ch ≠ 61) (hgt : ch ≠ 62) :
    (ch ≠ 47 → hasFlag (~~~(whitespaceChar ||| eqChar ||| gtChar ||| slashChar)) (charClass ch) = true) ∧
      (ch ≠ 63 → hasFlag (~~~(whitespaceChar ||| eqChar ||| quesChar ||| gtChar)) (charClass ch) = true) := by
  rcases charClass_cases ch with ⟨h, -⟩ | h | ⟨-, -, hclass⟩
  · exact absurd h hspace
  · have hmarkup : ∀ m ∈ markup, m.1 ≠ 61 → m.1 ≠ 62 →
        (m.1 ≠ 47 → hasFlag (~~~(whitespaceChar ||| eqChar ||| gtChar ||| slashChar)) m.2 = true) ∧
          (m.1 ≠ 63 → hasFlag (~~~(whitespaceChar ||| eqChar ||| quesChar ||| gtChar)) m.2 = true) :=
      List.all_iff_forall_prop.mp (by decide)
    exact hmarkup _ h heq hgt
  · rw [hclass]
    exact ⟨fun _ => by decide, fun _ => by decide⟩

/-- `unparsedLoop` over the characters ahead: those of the text, and those that are left. -/
def unparsed : Nat → List Unichar → List Unichar × List Unichar
  | _, [] => ([], [])
  | numRBrack, ch :: cs =>
    if numRBrack = 0 then
      if ch = 93 then unparsed 1 cs else (ch :: (unparsed 0 cs).1, (unparsed 0 cs).2)
    else if numRBrack = 1 then
      if ch = 93 then unparsed 2 cs else (93 :: ch :: (unparsed 0 cs).1, (unparsed 0 cs).2)
    else if ch = 62 then ([], cs)
    else if ch = 93 then (93 :: (unparsed 2 cs).1, (unparsed 2 cs).2)
    else (93 :: 93 :: ch :: (unparsed 0 cs).1, (unparsed 0 cs).2)

theorem unparsedLoop_reaches (numRBrack : Nat) (hi : i.Settled) (h : i.ahead = cs) :
    ∃ j, unparsedLoop numRBrack i = (Utf8.appendAll 0 (unparsed numRBrack cs).1, j) ∧
      Reaches i (unparsed numRBrack cs).2 j := by
  induction cs generalizing i numRBrack with
  | nil =>
    have hended := ahead_eq_nil.mp h
    refine ⟨i, ?_, ?_⟩
    · rw [unparsedLoop, hended]
      rfl
    · have hrefl := Reaches.refl hi
      rw [h] at hrefl
      exact hrefl
  | cons ch cs ih =>
    obtain ⟨hhave, hch, -⟩ := ahead_eq_cons.mp h
    have hnext := readNextChar_cons hi h
    have hloop : ∀ n, ∃ j, unparsedLoop n i.readNextChar = (Utf8.appendAll 0 (unparsed n cs).1, j) ∧
        Reaches i (unparsed n cs).2 j := by
      intro n
      obtain ⟨j, hloop, hreaches⟩ := ih n hnext.settled hnext.ahead
      exact ⟨j, hloop, hnext.trans hreaches⟩
    obtain ⟨j₀, hloop₀, hreaches₀⟩ := hloop 0
    obtain ⟨j₂, hloop₂, hreaches₂⟩ := hloop 2
    rw [unparsedLoop, if_pos hhave, hch, unparsed]
    simp only [hloop₀, hloop₂]
    split_ifs
    · exact hloop 1
    · exact ⟨j₀, rfl, hreaches₀⟩
    · exact ⟨j₂, rfl, hreaches₂⟩
    · exact ⟨j₀, rfl, hreaches₀⟩
    · exact ⟨_, rfl, hnext⟩
    · exact ⟨j₂, rfl, hreaches₂⟩
    · exact ⟨j₀, rfl, hreaches₀⟩

end Input

end Afl.Io.Xml
