import Afl.Checksums.Hash

/-!
# SHA-1

`afl/checksums/sha1.cpp`, with the simple version of `processBlock`.
-/

namespace Afl.Checksums

open Bits Blocks

/-! ### The compression function -/

namespace SHA1

/-- `m_state`, and the registers. -/
structure State where
  a : UInt32
  b : UInt32
  c : UInt32
  d : UInt32
  e : UInt32
deriving DecidableEq

def State.toList (state : State) : List UInt32 := [state.a, state.b, state.c, state.d, state.e]

def k0 : UInt32 := 0x5A827999

def k1 : UInt32 := 0x6ED9EBA1

def k2 : UInt32 := 0x8F1BBCDC

def k3 : UInt32 := 0xCA62C1D6

/-- One turn of the loop that extends `W`. -/
def extend (w : List UInt32) (t : Nat) : List UInt32 :=
  w ++ [rotateLeft32 (w.getD (t - 3) 0 ^^^ w.getD (t - 8) 0 ^^^ w.getD (t - 14) 0 ^^^ w.getD (t - 16) 0) 1]

def turn (g : UInt32 → UInt32 → UInt32 → UInt32) (k : UInt32) (w : List UInt32) (r : State) (t : Nat) : State :=
  let tmp := rotateLeft32 r.a 5 + g r.b r.c r.d + r.e + w.getD t 0 + k
  ⟨tmp, r.a, rotateLeft32 r.b 30, r.c, r.d⟩

def processBlock (state : State) (block : Bytes) : State :=
  let w := (List.range' 16 64).foldl extend (unpackArray uInt32BE 16 block)
  let r := (List.range' 0 20).foldl (turn (fun b c d => (b &&& c) ||| (~~~b &&& d)) k0 w) state
  let r := (List.range' 20 20).foldl (turn (fun b c d => b ^^^ c ^^^ d) k1 w) r
  let r := (List.range' 40 20).foldl (turn (fun b c d => (b &&& c) ||| ((b ||| c) &&& d)) k2 w) r
  let r := (List.range' 60 20).foldl (turn (fun b c d => b ^^^ c ^^^ d) k3 w) r
  ⟨state.a + r.a, state.b + r.b, state.c + r.c, state.d + r.d, state.e + r.e⟩

/-- What `clear` sets the state to. -/
def initial : State := ⟨0x67452301, 0xEFCDAB89, 0x98BADCFE, 0x10325476, 0xC3D2E1F0⟩

end SHA1

/-! ### The object -/

structure SHA1 where
  m_block : Buffer 64
  m_state : SHA1.State
  m_bytes : UInt64

namespace SHA1

def clear (sha1 : SHA1) : SHA1 := { sha1 with m_bytes := 0, m_state := initial }

/-- "Try to fill one block": the block, the state, what remains of the data, and where it goes. -/
def fillBlock (sha1 : SHA1) (index : Nat) (data : Bytes) : Buffer 64 × State × Bytes × Nat :=
  let room := 64 - index
  if index ≠ 0 ∧ room ≤ data.length then
    let m_block := sha1.m_block.write index (data.take room)
    (m_block, processBlock sha1.m_state m_block.bytes, data.drop room, 0)
  else (sha1.m_block, sha1.m_state, data, index)

def add (sha1 : SHA1) (data : Bytes) : SHA1 :=
  let index := (sha1.m_bytes % 64).toNat
  let m_bytes := sha1.m_bytes + UInt64.ofNat data.length
  let (m_block, m_state, data, index) := fillBlock sha1 index data
  let (m_state, data) := eat 64 processBlock m_state data
  ⟨m_block.write index data, m_state, m_bytes⟩

def padMessage (sha1 : SHA1) : SHA1 :=
  let index := (sha1.m_bytes % 64).toNat
  let encodedSize := uInt64BE.pack (sha1.m_bytes <<< 3)
  let pad : Bytes := 0x80 :: List.replicate 63 0
  let padSize := if 55 < index then 120 - index else 56 - index
  add (add sha1 (pad.take padSize)) encodedSize

def hashSize : Nat := 20

def getHash (sha1 : SHA1) (room : Nat) : Bytes :=
  (packArray uInt32BE hashSize (padMessage sha1).m_state.toList).take room

/-- Class `SHA1` as a `Hash`. -/
def hash : Hash SHA1 := ⟨clear, add, hashSize, 64, getHash⟩

theorem blockSize_pos : 0 < 64 := by decide

/-- RFC 3174. -/
def construction : Construction State UInt8 Bytes where
  blockSize := 64
  pos := blockSize_pos
  fieldSize := 8
  initial := initial
  compress := processBlock
  one := 0x80
  zero := 0
  field len := bigEndian 8 (8 * len)
  length_field len := length_bigEndian 8 (8 * len)
  output state := state.toList.flatMap uInt32BE.pack

/-! ### What the object holds -/

/-- Invariant: the bytes since `clear` are counted, their complete blocks are in the state, the rest is in the block. -/
structure Holds (sha1 : SHA1) (m : Bytes) : Prop where
  count : sha1.m_bytes = UInt64.ofNat m.length
  absorbed : Absorbed 64 processBlock initial m sha1.m_state (sha1.m_block.bytes.take (m.length % 64))

variable {sha1 : SHA1} {m : Bytes}

theorem clear_holds (sha1 : SHA1) : (clear sha1).Holds [] := ⟨rfl, Absorbed.nil⟩

theorem Holds.index (h : sha1.Holds m) : (sha1.m_bytes % 64).toNat = m.length % 64 := by
  rw [h.count, UInt64.toNat_mod, UInt64.toNat_ofNat']
  show m.length % 2 ^ 64 % 64 = m.length % 64
  omega

theorem fillBlock_spec (h : sha1.Holds m) (data : Bytes) {block : Buffer 64} {state : State} {rest : Bytes}
    {index : Nat} (hfill : fillBlock sha1 (m.length % 64) data = (block, state, rest, index)) :
    Absorbed 64 processBlock initial (m ++ data) state (block.bytes.take index ++ rest) ∧
      (index = 0 ∨ index + rest.length < 64) := by
  have hlt : m.length % 64 < 64 := Nat.mod_lt _ (by decide)
  rw [fillBlock] at hfill
  by_cases hcomplete : m.length % 64 ≠ 0 ∧ 64 - m.length % 64 ≤ data.length
  · rw [if_pos hcomplete] at hfill
    simp only [Prod.mk.injEq] at hfill
    obtain ⟨rfl, rfl, rfl, rfl⟩ := hfill
    exact ⟨absorbed_complete sha1.m_block hlt h.absorbed hcomplete.2, .inl rfl⟩
  · rw [if_neg hcomplete] at hfill
    simp only [Prod.mk.injEq] at hfill
    obtain ⟨rfl, rfl, rfl, rfl⟩ := hfill
    exact ⟨h.absorbed.append data, by omega⟩

theorem add_holds (h : sha1.Holds m) (data : Bytes) : (add sha1 data).Holds (m ++ data) := by
  obtain ⟨block, state, rest, index, hfill⟩ : ∃ block state rest index,
      fillBlock sha1 (m.length % 64) data = (block, state, rest, index) := ⟨_, _, _, _, rfl⟩
  obtain ⟨habsorbed, hindex⟩ := fillBlock_spec h data hfill
  have hcount : sha1.m_bytes + UInt64.ofNat data.length = UInt64.ofNat (m ++ data).length := by
    rw [h.count, List.length_append, UInt64.ofNat_add]
  rw [add, h.index]
  dsimp only
  rw [hfill]
  refine ⟨hcount, ?_⟩
  dsimp only
  rcases hindex with rfl | hshort
  · exact absorbed_write _ (by rw [Nat.zero_add]; exact eat_length (by decide) _ _) habsorbed.eat
  · rw [eat_short state (by omega)]
    exact absorbed_write _ hshort habsorbed

theorem padMessage_holds (h : sha1.Holds m) : (padMessage sha1).Holds (construction.pad m) := by
  have hpad : ((0x80 : UInt8) :: List.replicate 63 0).take
      (if 55 < m.length % 64 then 120 - m.length % 64 else 56 - m.length % 64) =
      0x80 :: List.replicate (zeros 64 8 m.length) 0 := by
    split
    · exact padding_take (by omega) (by omega) (by omega)
    · exact padding_take (by omega) (by omega) (by omega)
  have hsize : uInt64BE.pack (sha1.m_bytes <<< 3) = bigEndian 8 (8 * m.length) := by
    rw [h.count, shiftLeft_three, uInt64BE_pack]
  rw [padMessage, h.index, hsize, hpad]
  exact add_holds (add_holds h _) _

theorem getHash_eq (h : sha1.Holds m) (room : Nat) : getHash sha1 room = (construction.digest m).take room := by
  have hpadded := padMessage_holds h
  have hrest : ((padMessage sha1).m_block.bytes.take ((construction.pad m).length % 64)).length < 64 := by
    rw [List.length_take]
    exact Nat.lt_of_le_of_lt (Nat.min_le_left _ _) (Nat.mod_lt _ (by decide))
  have hpack : packArray uInt32BE (5 * 4) (padMessage sha1).m_state.toList =
      construction.output (padMessage sha1).m_state := packArray_exact uInt32BE (by decide) le_rfl
  show (packArray uInt32BE (5 * 4) (padMessage sha1).m_state.toList).take room = _
  rw [hpack, Construction.output_eq_digest (c := construction) hpadded.absorbed hrest]

/-- **SHA-1 computes its construction.** -/
theorem computes : hash.Computes Holds construction.digest where
  clear := clear_holds
  add h data := add_holds h data
  getHash h room hroom := by
    show getHash _ room = _
    rw [getHash_eq h, List.take_of_length_le (by exact hroom)]
  length_digest _ := rfl
  size_pos := by decide

end SHA1

end Afl.Checksums
