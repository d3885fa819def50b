import Afl.Base.Bytes

/-!
# UTF-8 encoding

`afl/charset/unicode.hpp` and the encoder of `afl/charset/utf8.cpp`. A rune is a 32-bit number, and the encoder
accepts all of them, up to the seven-byte forms that are not UTF-8 any more. With `AllowErrorEscapes`, the 128
runes of the error range stand for the bytes 0x80 to 0xFF.
-/

namespace Afl.Charset

abbrev Unichar := UInt32

def unicodeMax : Unichar := 0x10FFFF

def unicodeHighSurrogateMin : Unichar := 0xD800

def unicodeHighSurrogateMax : Unichar := 0xDBFF

def unicodeLowSurrogateMin : Unichar := 0xDC00

def unicodeLowSurrogateMax : Unichar := 0xDFFF

def unicodeErrorMin : Unichar := 0xEF80

def unicodeErrorMax : Unichar := 0xEFFF

def makeErrorCharacter (id : UInt8) : Unichar := unicodeErrorMin + (id.toUInt32 - 0x80)

def isErrorCharacter (uc : Unichar) : Bool := unicodeErrorMin ≤ uc && uc ≤ unicodeErrorMax

def getErrorCharacterId (uc : Unichar) : UInt8 := (uc - unicodeErrorMin + 0x80).toUInt8

/-! ### Flags -/

def allowEncodedZero : UInt32 := 1

def allowSurrogates : UInt32 := 2

def allowNonMinimal : UInt32 := 4

def allowNonCharacters : UInt32 := 8

def allowErrorEscapes : UInt32 := 16

/-- `(m_flags & flag) != 0`. -/
def hasFlag (flags flag : UInt32) : Bool := flags &&& flag != 0

/-! ### The encoder -/

/-- The loop of `appendOne` over the continuation bytes. -/
def appendExtra : Nat → Unichar → Bytes
  | 0, _ => []
  | extraBytes + 1, ch =>
    UInt32.toUInt8 (0x80 + ((ch >>> UInt32.ofNat (6 * extraBytes)) &&& 0x3F)) :: appendExtra extraBytes ch

/-- A lead byte: the mark of its class and the top bits of the rune. -/
def leadByte (mark bits : Unichar) : UInt8 := (mark + bits).toUInt8

def appendOne (ch : Unichar) : Bytes :=
  if ch ≤ 0x7FF then leadByte 0xC0 (ch >>> 6) :: appendExtra 1 ch
  else if ch ≤ 0xFFFF then leadByte 0xE0 (ch >>> 12) :: appendExtra 2 ch
  else if ch ≤ 0x1FFFFF then leadByte 0xF0 (ch >>> 18) :: appendExtra 3 ch
  else if ch ≤ 0x3FFFFFF then leadByte 0xF8 (ch >>> 24) :: appendExtra 4 ch
  else if ch ≤ 0x7FFFFFFF then leadByte 0xFC (ch >>> 30) :: appendExtra 5 ch
  else 0xFE :: appendExtra 6 ch

/-- What `Utf8::append` appends to its string. -/
def Utf8.append (flags : UInt32) (ch : Unichar) : Bytes :=
  if hasFlag flags allowErrorEscapes && isErrorCharacter ch then [getErrorCharacterId ch]
  else if 0x10000 ≤ ch ∧ ch ≤ unicodeMax ∧ hasFlag flags allowSurrogates then
    let ch := ch - 0x10000
    appendOne (unicodeHighSurrogateMin + ((ch >>> 10) &&& 0x3FF)) ++
      appendOne (unicodeLowSurrogateMin + (ch &&& 0x3FF))
  else if ch = 0 ∧ hasFlag flags allowEncodedZero then appendOne 0
  else if 0x80 ≤ ch then appendOne ch
  else [ch.toUInt8]

def Utf8.appendAll (flags : UInt32) (text : List Unichar) : Bytes := text.flatMap (Utf8.append flags)

/-! ### Error characters -/

theorem isErrorCharacter_make {id : UInt8} (hid : 0x80 ≤ id) : isErrorCharacter (makeErrorCharacter id) = true := by
  have hlt := id.toNat_lt
  have hvalue : (makeErrorCharacter id).toNat = 0xEF80 + (id.toNat - 0x80) := by
    have hsub : (id.toUInt32 - 0x80).toNat = id.toNat - 0x80 :=
      UInt32.toNat_sub_of_le _ _ (UInt8.toUInt32_le.mpr hid)
    rw [makeErrorCharacter, UInt32.toNat_add, hsub]
    simp [unicodeErrorMin]
    omega
  rw [isErrorCharacter, Bool.and_eq_true, decide_eq_true_eq, decide_eq_true_eq, UInt32.le_iff_toNat_le,
    UInt32.le_iff_toNat_le, hvalue]
  simp [unicodeErrorMin, unicodeErrorMax]
  omega

theorem getErrorCharacterId_make (id : UInt8) : getErrorCharacterId (makeErrorCharacter id) = id := by
  rw [getErrorCharacterId, makeErrorCharacter, UInt32.add_comm unicodeErrorMin, UInt32.add_sub_cancel, UInt32.sub_add_cancel]
  simp

theorem append_makeErrorCharacter {flags : UInt32} (hflags : hasFlag flags allowErrorEscapes = true) {id : UInt8}
    (hid : 0x80 ≤ id) : Utf8.append flags (makeErrorCharacter id) = [id] := by
  rw [Utf8.append, hflags, isErrorCharacter_make hid, getErrorCharacterId_make]
  rfl

end Afl.Charset
