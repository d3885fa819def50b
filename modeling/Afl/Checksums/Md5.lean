import Afl.Checksums.Hash

/-!
# MD5

`afl/checksums/md5.cpp`.
-/

namespace Afl.Checksums

open Bits Blocks

/-! ### The transformation of a block -/

namespace MD5

def s11 : Nat := 7
def s12 : Nat := 12
def s13 : Nat := 17
def s14 : Nat := 22
def s21 : Nat := 5
def s22 : Nat := 9
def s23 : Nat := 14
def s24 : Nat := 20
def s31 : Nat := 4
def s32 : Nat := 11
def s33 : Nat := 16
def s34 : Nat := 23
def s41 : Nat := 6
def s42 : Nat := 10
def s43 : Nat := 15
def s44 : Nat := 21

def F (x y z : UInt32) : UInt32 := (x &&& y) ||| (~~~x &&& z)

def G (x y z : UInt32) : UInt32 := (x &&& z) ||| (y &&& ~~~z)

def H (x y z : UInt32) : UInt32 := x ^^^ y ^^^ z

def I (x y z : UInt32) : UInt32 := y ^^^ (x ||| ~~~z)

/-- What `FF`, `GG`, `HH` and `II` share. -/
def step (g : UInt32 → UInt32 → UInt32 → UInt32) (a b c d x : UInt32) (s : Nat) (ac : UInt32) : UInt32 :=
  rotateLeft32 (a + (g b c d + x + ac)) s + b

def FF := step F

def GG := step G

def HH := step H

def II := step I

structure State where
  a : UInt32
  b : UInt32
  c : UInt32
  d : UInt32
deriving DecidableEq

def State.toList (state : State) : List UInt32 := [state.a, state.b, state.c, state.d]

def transform (state : State) (block : Bytes) : State :=
  let words := unpackArray uInt32LE 16 block
  let x := fun i => words.getD i 0
  let a := state.a
  let b := state.b
  let c := state.c
  let d := state.d
  -- Round 1
  let a := FF a b c d (x 0) s11 0xd76aa478
  let d := FF d a b c (x 1) s12 0xe8c7b756
  let c := FF c d a b (x 2) s13 0x242070db
  let b := FF b c d a (x 3) s14 0xc1bdceee
  let a := FF a b c d (x 4) s11 0xf57c0faf
  let d := FF d a b c (x 5) s12 0x4787c62a
  let c := FF c d a b (x 6) s13 0xa8304613
  let b := FF b c d a (x 7) s14 0xfd469501
  let a := FF a b c d (x 8) s11 0x698098d8
  let d := FF d a b c (x 9) s12 0x8b44f7af
  let c := FF c d a b (x 10) s13 0xffff5bb1
  let b := FF b c d a (x 11) s14 0x895cd7be
  let a := FF a b c d (x 12) s11 0x6b901122
  let d := FF d a b c (x 13) s12 0xfd987193
  let c := FF c d a b (x 14) s13 0xa679438e
  let b := FF b c d a (x 15) s14 0x49b40821
  -- Round 2
  let a := GG a b c d (x 1) s21 0xf61e2562
  let d := GG d a b c (x 6) s22 0xc040b340
  let c := GG c d a b (x 11) s23 0x265e5a51
  let b := GG b c d a (x 0) s24 0xe9b6c7aa
  let a := GG a b c d (x 5) s21 0xd62f105d
  let d := GG d a b c (x 10) s22 0x2441453
  let c := GG c d a b (x 15) s23 0xd8a1e681
  let b := GG b c d a (x 4) s24 0xe7d3fbc8
  let a := GG a b c d (x 9) s21 0x21e1cde6
  let d := GG d a b c (x 14) s22 0xc33707d6
  let c := GG c d a b (x 3) s23 0xf4d50d87
  let b := GG b c d a (x 8) s24 0x455a14ed
  let a := GG a b c d (x 13) s21 0xa9e3e905
  let d := GG d a b c (x 2) s22 0xfcefa3f8
  let c := GG c d a b (x 7) s23 0x676f02d9
  let b := GG b c d a (x 12) s24 0x8d2a4c8a
  -- Round 3
  let a := HH a b c d (x 5) s31 0xfffa3942
  let d := HH d a b c (x 8) s32 0x8771f681
  let c := HH c d a b (x 11) s33 0x6d9d6122
  let b := HH b c d a (x 14) s34 0xfde5380c
  let a := HH a b c d (x 1) s31 0xa4beea44
  let d := HH d a b c (x 4) s32 0x4bdecfa9
  let c := HH c d a b (x 7) s33 0xf6bb4b60
  let b := HH b c d a (x 10) s34 0xbebfbc70
  let a := HH a b c d (x 13) s31 0x289b7ec6
  let d := HH d a b c (x 0) s32 0xeaa127fa
  let c := HH c d a b (x 3) s33 0xd4ef3085
  let b := HH b c d a (x 6) s34 0x4881d05
  let a := HH a b c d (x 9) s31 0xd9d4d039
  let d := HH d a b c (x 12) s32 0xe6db99e5
  let c := HH c d a b (x 15) s33 0x1fa27cf8
  let b := HH b c d a (x 2) s34 0xc4ac5665
  -- Round 4
  let a := II a b c d (x 0) s41 0xf4292244
  let d := II d a b c (x 7) s42 0x432aff97
  let c := II c d a b (x 14) s43 0xab9423a7
  let b := II b c d a (x 5) s44 0xfc93a039
  let a := II a b c d (x 12) s41 0x655b59c3
  let d := II d a b c (x 3) s42 0x8f0ccc92
  let c := II c d a b (x 10) s43 0xffeff47d
  let b := II b c d a (x 1) s44 0x85845dd1
  let a := II a b c d (x 8) s41 0x6fa87e4f
  let d := II d a b c (x 15) s42 0xfe2ce6e0
  let c := II c d a b (x 6) s43 0xa3014314
  let b := II b c d a (x 13) s44 0x4e0811a1
  let a := II a b c d (x 4) s41 0xf7537e82
  let d := II d a b c (x 11) s42 0xbd3af235
  let c := II c d a b (x 2) s43 0x2ad7d2bb
  let b := II b c d a (x 9) s44 0xeb86d391
  ⟨state.a + a, state.b + b, state.c + c, state.d + d⟩

/-- What `clear` sets the state to. -/
def initial : State := ⟨0x67452301, 0xefcdab89, 0x98badcfe, 0x10325476⟩

end MD5

/-! ### The object -/

structure MD5 where
  m_count : UInt64
  m_state : MD5.State
  m_buffer : Buffer 64

namespace MD5

def clear (md5 : MD5) : MD5 := { md5 with m_count := 0, m_state := initial }

def padding : Bytes := 0x80 :: List.replicate 63 0

def add (md5 : MD5) (data : Bytes) : MD5 :=
  let index := (md5.m_count &&& 0x3F).toNat
  let remainder := 64 - index
  let m_count := md5.m_count + UInt64.ofNat data.length
  if remainder ≤ data.length then
    let m_buffer := md5.m_buffer.write index (data.take remainder)
    let (m_state, data) := eat 64 transform (transform md5.m_state m_buffer.bytes) (data.drop remainder)
    ⟨m_count, m_state, m_buffer.write 0 data⟩
  else ⟨m_count, md5.m_state, md5.m_buffer.write index data⟩

/-- The clone of `getHash`, with the padding and the length added. -/
def finish (md5 : MD5) : MD5 :=
  let bits := uInt64LE.pack (md5.m_count <<< 3)
  let index := (md5.m_count &&& 0x3f).toNat
  let padLen := if index < 56 then 56 - index else 120 - index
  add (add md5 (padding.take padLen)) bits

def hashSize : Nat := 16

def getHash (md5 : MD5) (room : Nat) : Bytes :=
  (packArray uInt32LE hashSize (finish md5).m_state.toList).take room

/-- Class `MD5` as a `Hash`. -/
def hash : Hash MD5 := ⟨clear, add, hashSize, 64, getHash⟩

/-- RFC 1321. -/
def construction : Construction State UInt8 Bytes where
  blockSize := 64
  pos := by decide
  fieldSize := 8
  initial := initial
  compress := transform
  one := 0x80
  zero := 0
  field len := littleEndian 8 (8 * len)
  length_field len := length_littleEndian 8 (8 * len)
  output state := state.toList.flatMap uInt32LE.pack

/-! ### What the object holds -/

/-- Invariant: the bytes since `clear` are counted, their complete blocks are in the state, the rest is in the
buffer. -/
structure Holds (md5 : MD5) (m : Bytes) : Prop where
  count : md5.m_count = UInt64.ofNat m.length
  absorbed : Absorbed 64 transform initial m md5.m_state (md5.m_buffer.bytes.take (m.length % 64))

variable {md5 : MD5} {m : Bytes}

theorem clear_holds (md5 : MD5) : (clear md5).Holds [] := ⟨rfl, Absorbed.nil⟩

theorem Holds.index (h : md5.Holds m) : (md5.m_count &&& 0x3F).toNat = m.length % 64 := by
  rw [h.count, UInt64.toNat_and, UInt64.toNat_ofNat']
  show m.length % 2 ^ 64 &&& 2 ^ 6 - 1 = m.length % 64
  rw [Nat.and_two_pow_sub_one_eq_mod]
  omega

theorem Holds.count_add (h : md5.Holds m) (data : Bytes) :
    md5.m_count + UInt64.ofNat data.length = UInt64.ofNat (m ++ data).length := by
  rw [h.count, List.length_append, UInt64.ofNat_add]

theorem add_holds (h : md5.Holds m) (data : Bytes) : (add md5 data).Holds (m ++ data) := by
  have hlt : m.length % 64 < 64 := Nat.mod_lt _ (by decide)
  by_cases hcomplete : 64 - m.length % 64 ≤ data.length
  · have habsorbed := (absorbed_complete md5.m_buffer hlt h.absorbed hcomplete).eat
    rw [add, h.index]
    dsimp only
    rw [if_pos hcomplete]
    exact ⟨h.count_add data, absorbed_write _ (by rw [Nat.zero_add]; exact eat_length (by decide) _ _) habsorbed⟩
  · rw [add, h.index]
    dsimp only
    rw [if_neg hcomplete]
    exact ⟨h.count_add data, absorbed_write _ (by omega) (h.absorbed.append data)⟩

theorem finish_holds (h : md5.Holds m) : (finish md5).Holds (construction.pad m) := by
  have hpad : padding.take (if m.length % 64 < 56 then 56 - m.length % 64 else 120 - m.length % 64) =
      0x80 :: List.replicate (zeros 64 8 m.length) 0 := by
    split
    · exact padding_take (by omega) (by omega) (by omega)
    · exact padding_take (by omega) (by omega) (by omega)
  have hbits : uInt64LE.pack (md5.m_count <<< 3) = littleEndian 8 (8 * m.length) := by
    rw [h.count, shiftLeft_three, uInt64LE_pack]
  rw [finish, h.index, hpad, hbits]
  exact add_holds (add_holds h _) _

theorem getHash_eq (h : md5.Holds m) (room : Nat) : getHash md5 room = (construction.digest m).take room := by
  have hfinish := finish_holds h
  have hrest : ((finish md5).m_buffer.bytes.take ((construction.pad m).length % 64)).length < 64 := by
    rw [List.length_take]
    exact Nat.lt_of_le_of_lt (Nat.min_le_left _ _) (Nat.mod_lt _ (by decide))
  have hpack : packArray uInt32LE (4 * 4) (finish md5).m_state.toList = construction.output (finish md5).m_state :=
    packArray_exact uInt32LE (by decide) le_rfl
  show (packArray uInt32LE (4 * 4) (finish md5).m_state.toList).take room = _
  rw [hpack, Construction.output_eq_digest (c := construction) hfinish.absorbed hrest]

/-- **MD5 computes its construction.** -/
theorem computes : hash.Computes Holds construction.digest where
  clear := clear_holds
  add h data := add_holds h data
  getHash h room hroom := by
    show getHash _ room = _
    rw [getHash_eq h, List.take_of_length_le (by exact hroom)]
  length_digest _ := rfl
  size_pos := by decide

end MD5

end Afl.Checksums
