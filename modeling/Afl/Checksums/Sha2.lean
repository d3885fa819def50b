import Afl.Checksums.Hash

/-!
# SHA-2

`afl/checksums/sha2core.hpp` and the four classes that instantiate it.
-/

namespace Afl.Checksums

open Bits Blocks

/-! ### The parameters -/

/-- Template parameter `T` of `SHA2Core`; `iterations` is `ITERATIONS`. A length in bits is passed to `pack_length` in
two halves. -/
structure SHA2Traits (W : Type) where
  element : Element W
  size_cases : element.size = 4 ∨ element.size = 8
  ch : W → W → W → W
  maj : W → W → W → W
  bsig0 : W → W
  bsig1 : W → W
  ssig0 : W → W
  ssig1 : W → W
  packLength : UInt64 → UInt64 → Bytes
  packLength_eq : ∀ n, packLength (UInt64.ofNat n) (UInt64.ofNat (n / 2 ^ 64)) = bigEndian (element.size / 4 * 8) n
  ks : List W
  iterations : Nat

namespace SHA2Traits

variable {W : Type} (T : SHA2Traits W)

def blockSize : Nat := 16 * T.element.size

/-- `sizeof(len_bits)`. -/
def lengthSize : Nat := T.element.size / 4 * 8

theorem sizes : 0 < T.element.size ∧ T.lengthSize < T.blockSize ∧ 0 < T.lengthSize ∧ T.blockSize ≤ 128 := by
  rcases T.size_cases with h | h
  · rw [blockSize, lengthSize, h]
    decide
  · rw [blockSize, lengthSize, h]
    decide

end SHA2Traits

def sha2_32 : SHA2Traits UInt32 where
  element := uInt32BE
  size_cases := .inl rfl
  ch x y z := (x &&& y) ^^^ (~~~x &&& z)
  maj x y z := (x &&& y) ^^^ (x &&& z) ^^^ (y &&& z)
  bsig0 x := rotateRight32 x 2 ^^^ rotateRight32 x 13 ^^^ rotateRight32 x 22
  bsig1 x := rotateRight32 x 6 ^^^ rotateRight32 x 11 ^^^ rotateRight32 x 25
  ssig0 x := rotateRight32 x 7 ^^^ rotateRight32 x 18 ^^^ (x >>> 3)
  ssig1 x := rotateRight32 x 17 ^^^ rotateRight32 x 19 ^^^ (x >>> 10)
  packLength lo _ := uInt64BE.pack lo
  packLength_eq n := uInt64BE_pack n
  ks := [0x428a2f98, 0x71374491, 0xb5c0fbcf, 0xe9b5dba5, 0x3956c25b, 0x59f111f1, 0x923f82a4, 0xab1c5ed5,
    0xd807aa98, 0x12835b01, 0x243185be, 0x550c7dc3, 0x72be5d74, 0x80deb1fe, 0x9bdc06a7, 0xc19bf174,
    0xe49b69c1, 0xefbe4786, 0x0fc19dc6, 0x240ca1cc, 0x2de92c6f, 0x4a7484aa, 0x5cb0a9dc, 0x76f988da,
    0x983e5152, 0xa831c66d, 0xb00327c8, 0xbf597fc7, 0xc6e00bf3, 0xd5a79147, 0x06ca6351, 0x14292967,
    0x27b70a85, 0x2e1b2138, 0x4d2c6dfc, 0x53380d13, 0x650a7354, 0x766a0abb, 0x81c2c92e, 0x92722c85,
    0xa2bfe8a1, 0xa81a664b, 0xc24b8b70, 0xc76c51a3, 0xd192e819, 0xd6990624, 0xf40e3585, 0x106aa070,
    0x19a4c116, 0x1e376c08, 0x2748774c, 0x34b0bcb5, 0x391c0cb3, 0x4ed8aa4a, 0x5b9cca4f, 0x682e6ff3,
    0x748f82ee, 0x78a5636f, 0x84c87814, 0x8cc70208, 0x90befffa, 0xa4506ceb, 0xbef9a3f7, 0xc67178f2]
  iterations := 64

def sha2_64 : SHA2Traits UInt64 where
  element := uInt64BE
  size_cases := .inr rfl
  ch x y z := (x &&& y) ^^^ (~~~x &&& z)
  maj x y z := (x &&& y) ^^^ (x &&& z) ^^^ (y &&& z)
  bsig0 x := rotateRight64 x 28 ^^^ rotateRight64 x 34 ^^^ rotateRight64 x 39
  bsig1 x := rotateRight64 x 14 ^^^ rotateRight64 x 18 ^^^ rotateRight64 x 41
  ssig0 x := rotateRight64 x 1 ^^^ rotateRight64 x 8 ^^^ (x >>> 7)
  ssig1 x := rotateRight64 x 19 ^^^ rotateRight64 x 61 ^^^ (x >>> 6)
  packLength lo hi := uInt64BE.pack hi ++ uInt64BE.pack lo
  packLength_eq n := by
    rw [uInt64BE_pack, uInt64BE_pack]
    exact (bigEndian_add 8 8 n).symm
  ks := [0x428a2f98d728ae22, 0x7137449123ef65cd, 0xb5c0fbcfec4d3b2f, 0xe9b5dba58189dbbc, 0x3956c25bf348b538,
    0x59f111f1b605d019, 0x923f82a4af194f9b, 0xab1c5ed5da6d8118, 0xd807aa98a3030242, 0x12835b0145706fbe,
    0x243185be4ee4b28c, 0x550c7dc3d5ffb4e2, 0x72be5d74f27b896f, 0x80deb1fe3b1696b1, 0x9bdc06a725c71235,
    0xc19bf174cf692694, 0xe49b69c19ef14ad2, 0xefbe4786384f25e3, 0x0fc19dc68b8cd5b5, 0x240ca1cc77ac9c65,
    0x2de92c6f592b0275, 0x4a7484aa6ea6e483, 0x5cb0a9dcbd41fbd4, 0x76f988da831153b5, 0x983e5152ee66dfab,
    0xa831c66d2db43210, 0xb00327c898fb213f, 0xbf597fc7beef0ee4, 0xc6e00bf33da88fc2, 0xd5a79147930aa725,
    0x06ca6351e003826f, 0x142929670a0e6e70, 0x27b70a8546d22ffc, 0x2e1b21385c26c926, 0x4d2c6dfc5ac42aed,
    0x53380d139d95b3df, 0x650a73548baf63de, 0x766a0abb3c77b2a8, 0x81c2c92e47edaee6, 0x92722c851482353b,
    0xa2bfe8a14cf10364, 0xa81a664bbc423001, 0xc24b8b70d0f89791, 0xc76c51a30654be30, 0xd192e819d6ef5218,
    0xd69906245565a910, 0xf40e35855771202a, 0x106aa07032bbd1b8, 0x19a4c116b8d2d0c8, 0x1e376c085141ab53,
    0x2748774cdf8eeb99, 0x34b0bcb5e19b48a8, 0x391c0cb3c5c95a63, 0x4ed8aa4ae3418acb, 0x5b9cca4f7763e373,
    0x682e6ff3d6b2b8a3, 0x748f82ee5defb2fc, 0x78a5636f43172f60, 0x84c87814a1f0ab72, 0x8cc702081a6439ec,
    0x90befffa23631e28, 0xa4506cebde82bde9, 0xbef9a3f7b2c67915, 0xc67178f2e372532b, 0xca273eceea26619c,
    0xd186b8c721c0c207, 0xeada7dd6cde0eb1e, 0xf57d4f7fee6ed178, 0x06f067aa72176fba, 0x0a637dc5a2c898a6,
    0x113f9804bef90dae, 0x1b710b35131c471b, 0x28db77f523047d84, 0x32caab7b40c72493, 0x3c9ebe0a15c9bebc,
    0x431d67c49c100d4c, 0x4cc5d4becb3e42b6, 0x597f299cfc657e2a, 0x5fcb6fab3ad6faec, 0x6c44198c4a475817]
  iterations := 80

variable {W : Type}

structure SHA2State (W : Type) where
  a : W
  b : W
  c : W
  d : W
  e : W
  f : W
  g : W
  h : W
deriving DecidableEq

def SHA2State.toList (hs : SHA2State W) : List W := [hs.a, hs.b, hs.c, hs.d, hs.e, hs.f, hs.g, hs.h]

/-- `INIT`, one for each class. -/
def init224 : SHA2State UInt32 := ⟨0xc1059ed8, 0x367cd507, 0x3070dd17, 0xf70e5939,
  0xffc00b31, 0x68581511, 0x64f98fa7, 0xbefa4fa4⟩

def init256 : SHA2State UInt32 := ⟨0x6a09e667, 0xbb67ae85, 0x3c6ef372, 0xa54ff53a,
  0x510e527f, 0x9b05688c, 0x1f83d9ab, 0x5be0cd19⟩

def init384 : SHA2State UInt64 := ⟨0xcbbb9d5dc1059ed8, 0x629a292a367cd507, 0x9159015a3070dd17, 0x152fecd8f70e5939,
  0x67332667ffc00b31, 0x8eb44a8768581511, 0xdb0c2e0d64f98fa7, 0x47b5481dbefa4fa4⟩

def init512 : SHA2State UInt64 := ⟨0x6a09e667f3bcc908, 0xbb67ae8584caa73b, 0x3c6ef372fe94f82b, 0xa54ff53a5f1d36f1,
  0x510e527fade682d1, 0x9b05688c2b3e6c1f, 0x1f83d9abfb41bd6b, 0x5be0cd19137e2179⟩

/-! ### The core -/

structure SHA2Core (T : SHA2Traits W) where
  m_hs : SHA2State W
  m_counterLo : UInt64
  m_counterHi : UInt64
  m_fill : Nat
  m_block : Buffer T.blockSize
  fill_lt : m_fill < T.blockSize

namespace SHA2Core

variable {T : SHA2Traits W}

def init (core : SHA2Core T) (hs : SHA2State W) : SHA2Core T where
  m_hs := hs
  m_counterLo := 0
  m_counterHi := 0
  m_fill := 0
  m_block := core.m_block
  fill_lt := Nat.lt_of_le_of_lt (Nat.zero_le _) core.fill_lt

/-- How many zeros make `m_fill` what the loop of `pad` waits for. -/
def missing (core : SHA2Core T) : Nat :=
  if core.m_fill ≤ T.blockSize - T.lengthSize then T.blockSize - T.lengthSize - core.m_fill
  else T.blockSize + (T.blockSize - T.lengthSize) - core.m_fill

theorem missing_lt (core : SHA2Core T) : core.missing < T.blockSize := by
  have hfill := core.fill_lt
  obtain ⟨-, hlt, hpos, -⟩ := T.sizes
  rw [missing]
  split <;> omega

section compression

variable [Add W] [OfNat W 0] (T)

/-- One turn of the loop that prepares the message schedule. -/
def extend (ws : List W) (t : Nat) : List W :=
  ws ++ [T.ssig1 (ws.getD (t - 2) 0) + ws.getD (t - 7) 0 + T.ssig0 (ws.getD (t - 15) 0) + ws.getD (t - 16) 0]

def turn (ws : List W) (r : SHA2State W) (t : Nat) : SHA2State W :=
  let t1 := r.h + T.bsig1 r.e + T.ch r.e r.f r.g + T.ks.getD t 0 + ws.getD t 0
  let t2 := T.bsig0 r.a + T.maj r.a r.b r.c
  ⟨t1 + t2, r.a, r.b, r.c, r.d + t1, r.e, r.f, r.g⟩

/-- `unpack` and `block`. -/
def block (hs : SHA2State W) (bytes : Bytes) : SHA2State W :=
  let ms := unpackArray T.element 16 bytes
  let ws := (List.range' 16 (T.iterations - 16)).foldl (extend T) ms
  let r := (List.range T.iterations).foldl (turn T ws) hs
  ⟨hs.a + r.a, hs.b + r.b, hs.c + r.c, hs.d + r.d, hs.e + r.e, hs.f + r.f, hs.g + r.g, hs.h + r.h⟩

end compression

variable [Add W] [OfNat W 0]

/-- One turn of the loop of `add`, with the part of the data that it takes. -/
def addPart (core : SHA2Core T) (part : Bytes) : SHA2Core T :=
  let now := UInt64.ofNat part.length
  let m_block := core.m_block.write core.m_fill part
  let m_counterLo := core.m_counterLo + 8 * now
  let m_counterHi := if m_counterLo < 8 * now then core.m_counterHi + 1 else core.m_counterHi
  if hfill : T.blockSize ≤ core.m_fill + part.length then
    ⟨block T core.m_hs m_block.bytes, m_counterLo, m_counterHi, 0, m_block,
      Nat.lt_of_le_of_lt (Nat.zero_le _) core.fill_lt⟩
  else ⟨core.m_hs, m_counterLo, m_counterHi, core.m_fill + part.length, m_block, Nat.lt_of_not_le hfill⟩

def add (core : SHA2Core T) (data : Bytes) : SHA2Core T :=
  if data = [] then core
  else add (core.addPart (data.take (T.blockSize - core.m_fill))) (data.drop (T.blockSize - core.m_fill))
termination_by data.length
decreasing_by
  have hdata : 0 < data.length := List.length_pos_of_ne_nil ‹_›
  have hfill := core.fill_lt
  rw [List.length_drop]
  omega

theorem add_singleton (core : SHA2Core T) (byte : UInt8) : core.add [byte] = core.addPart [byte] := by
  have hroom : 1 ≤ T.blockSize - core.m_fill := Nat.sub_pos_of_lt core.fill_lt
  rw [add, if_neg (List.cons_ne_nil byte []), List.take_of_length_le (by exact hroom),
    List.drop_eq_nil_of_le (by exact hroom), add, if_pos rfl]

theorem addPart_fill (core : SHA2Core T) (part : Bytes) : (core.addPart part).m_fill =
    if T.blockSize ≤ core.m_fill + part.length then 0 else core.m_fill + part.length := by
  rw [addPart]
  split <;> rfl

theorem missing_add (core : SHA2Core T) (byte : UInt8) (h : core.m_fill ≠ T.blockSize - T.lengthSize) :
    (core.add [byte]).missing + 1 = core.missing := by
  have hfill := core.fill_lt
  obtain ⟨-, hlt, hpos, -⟩ := T.sizes
  rw [missing, missing, add_singleton, addPart_fill, List.length_singleton]
  by_cases hfull : T.blockSize ≤ core.m_fill + 1
  · rw [if_pos hfull, if_pos (Nat.zero_le _), if_neg (by omega)]
    omega
  · rw [if_neg hfull]
    split <;> split <;> omega

/-- The loop of `pad` that adds the zeros. -/
def padZeros (core : SHA2Core T) : SHA2Core T :=
  if core.m_fill ≠ T.blockSize - T.lengthSize then padZeros (core.add [0]) else core
termination_by core.missing
decreasing_by exact Nat.lt_of_succ_le (missing_add core 0 ‹_›).le

def pad (core : SHA2Core T) : SHA2Core T :=
  let lenLo := core.m_counterLo
  let lenHi := core.m_counterHi
  (padZeros (core.add [0x80])).add (T.packLength lenLo lenHi)

/-- What the four classes do in `getHash`: `packArray` into as much of the buffer as the hash needs. -/
def getHash (hashSize : Nat) (core : SHA2Core T) (room : Nat) : Bytes :=
  packArray T.element (min room hashSize) core.pad.m_hs.toList

/-! ### What the core holds -/

/-- RFC 6234. -/
def construction (T : SHA2Traits W) (initial : SHA2State W) (hashSize : Nat) :
    Construction (SHA2State W) UInt8 Bytes where
  blockSize := T.blockSize
  pos := Nat.lt_of_le_of_lt (Nat.zero_le _) T.sizes.2.1
  fieldSize := T.lengthSize
  initial := initial
  compress := block T
  one := 0x80
  zero := 0
  field len := bigEndian T.lengthSize (8 * len)
  length_field _ := length_bigEndian _ _
  output hs := (hs.toList.flatMap T.element.pack).take hashSize

/-- Invariant: the bits since `init` are counted, the complete blocks are in the state, the rest is in the block. -/
structure Holds (initial : SHA2State W) (core : SHA2Core T) (m : Bytes) : Prop where
  counterLo : core.m_counterLo = UInt64.ofNat (8 * m.length)
  counterHi : core.m_counterHi = UInt64.ofNat (8 * m.length / 2 ^ 64)
  absorbed : Absorbed T.blockSize (block T) initial m core.m_hs (core.m_block.bytes.take core.m_fill)

variable {initial : SHA2State W} {core : SHA2Core T} {m : Bytes}

theorem init_holds (core : SHA2Core T) (initial : SHA2State W) : (core.init initial).Holds initial [] :=
  ⟨rfl, rfl, by exact Absorbed.nil⟩

theorem Holds.fill (h : core.Holds initial m) : m.length % T.blockSize = core.m_fill := by
  have hlength : (core.m_block.bytes.take core.m_fill).length = core.m_fill := by
    rw [List.length_take, core.m_block.length_bytes, Nat.min_eq_left core.fill_lt.le]
  have hmod := h.absorbed.length_mod (by rw [hlength]; exact core.fill_lt)
  rwa [hlength] at hmod

theorem counter_carry (len : Nat) {now : Nat} (hnow : now ≤ 128) :
    (if UInt64.ofNat (8 * len) + 8 * UInt64.ofNat now < 8 * UInt64.ofNat now then
      UInt64.ofNat (8 * len / 2 ^ 64) + 1 else UInt64.ofNat (8 * len / 2 ^ 64)) =
      UInt64.ofNat (8 * (len + now) / 2 ^ 64) := by
  have hbits : (8 : UInt64) * UInt64.ofNat now = UInt64.ofNat (8 * now) := (UInt64.ofNat_mul 8 now).symm
  have hsum : UInt64.ofNat (8 * len) + UInt64.ofNat (8 * now) = UInt64.ofNat (8 * (len + now)) := by
    rw [Nat.mul_add, UInt64.ofNat_add]
  rw [hbits, hsum]
  by_cases hcarry : UInt64.ofNat (8 * (len + now)) < UInt64.ofNat (8 * now)
  · rw [if_pos hcarry]
    rw [UInt64.lt_iff_toNat_lt, UInt64.toNat_ofNat', UInt64.toNat_ofNat'] at hcarry
    rw [show 8 * (len + now) / 2 ^ 64 = 8 * len / 2 ^ 64 + 1 by omega, UInt64.ofNat_add]
    rfl
  · rw [if_neg hcarry]
    rw [UInt64.lt_iff_toNat_lt, UInt64.toNat_ofNat', UInt64.toNat_ofNat'] at hcarry
    rw [show 8 * (len + now) / 2 ^ 64 = 8 * len / 2 ^ 64 by omega]

theorem addPart_holds (h : core.Holds initial m) {part : Bytes} (hroom : core.m_fill + part.length ≤ T.blockSize) :
    (core.addPart part).Holds initial (m ++ part) := by
  have hpart : part.length ≤ 128 := by
    have hsizes := T.sizes.2.2.2
    omega
  have hlo : core.m_counterLo + 8 * UInt64.ofNat part.length = UInt64.ofNat (8 * (m ++ part).length) := by
    rw [h.counterLo, List.length_append, Nat.mul_add, UInt64.ofNat_add, UInt64.ofNat_mul 8 part.length]
    rfl
  have hhi : (if core.m_counterLo + 8 * UInt64.ofNat part.length < 8 * UInt64.ofNat part.length then
      core.m_counterHi + 1 else core.m_counterHi) = UInt64.ofNat (8 * (m ++ part).length / 2 ^ 64) := by
    rw [h.counterLo, h.counterHi, List.length_append]
    exact counter_carry m.length hpart
  have hstored := h.absorbed.append part
  rw [addPart]
  split
  · rename_i hfull
    refine ⟨hlo, hhi, ?_⟩
    have hblock : core.m_fill + part.length = T.blockSize := Nat.le_antisymm hroom hfull
    have hbytes := core.m_block.write_all hblock
    show Absorbed _ _ _ _ _ []
    exact Absorbed.block (by rw [List.append_nil, hbytes]; exact hstored) (Buffer.length_bytes _)
  · rename_i hpartial
    refine ⟨hlo, hhi, ?_⟩
    show Absorbed _ _ _ _ _ ((core.m_block.write core.m_fill part).bytes.take (core.m_fill + part.length))
    rw [Buffer.take_write _ hroom]
    exact hstored

theorem add_holds (h : core.Holds initial m) (data : Bytes) : (core.add data).Holds initial (m ++ data) := by
  induction core, data using add.induct generalizing m with
  | case1 core =>
    rw [add, if_pos rfl, List.append_nil]
    exact h
  | case2 core data hdata ih =>
    have hfill := core.fill_lt
    have hpart : core.m_fill + (data.take (T.blockSize - core.m_fill)).length ≤ T.blockSize := by
      rw [List.length_take]
      omega
    have hrest := ih (addPart_holds h hpart)
    rw [List.append_assoc, List.take_append_drop] at hrest
    rw [add, if_neg hdata]
    exact hrest

theorem padZeros_holds (h : core.Holds initial m) :
    (padZeros core).Holds initial (m ++ List.replicate core.missing 0) ∧
      (padZeros core).m_fill = T.blockSize - T.lengthSize := by
  induction core using padZeros.induct generalizing m with
  | case1 core hfill ih =>
    have hzeros := ih (add_holds h [0])
    rw [List.append_assoc, List.singleton_append, ← List.replicate_succ, missing_add core 0 hfill] at hzeros
    rw [padZeros, if_pos hfill]
    exact hzeros
  | case2 core hfill =>
    have hfill : core.m_fill = T.blockSize - T.lengthSize := not_not.mp hfill
    have hmissing : core.missing = 0 := by rw [missing, hfill, if_pos le_rfl, Nat.sub_self]
    rw [padZeros, if_neg (not_not.mpr hfill), hmissing, List.replicate_zero, List.append_nil]
    exact ⟨h, hfill⟩

theorem pad_holds (h : core.Holds initial m) (hashSize : Nat) :
    core.pad.Holds initial ((construction T initial hashSize).pad m) := by
  obtain ⟨hzeros, hfill⟩ := padZeros_holds (add_holds h [0x80])
  obtain ⟨-, hlt, -, -⟩ := T.sizes
  have hmod : (m.length + 1 + (core.add [0x80]).missing + T.lengthSize) % T.blockSize = 0 := by
    have hlength := hzeros.fill
    rw [hfill, List.length_append, List.length_append, List.length_replicate, List.length_singleton] at hlength
    rw [Nat.add_mod, hlength, Nat.add_mod_mod, Nat.sub_add_cancel hlt.le, Nat.mod_self]
  have hcount := eq_zeros (missing_lt _) hmod
  have hlen : T.packLength core.m_counterLo core.m_counterHi = bigEndian T.lengthSize (8 * m.length) := by
    rw [h.counterLo, h.counterHi]
    exact T.packLength_eq (8 * m.length)
  have hpadded := add_holds hzeros (T.packLength core.m_counterLo core.m_counterHi)
  rw [hlen, hcount, List.append_assoc m, List.singleton_append] at hpadded
  rw [pad, hlen]
  exact hpadded

theorem getHash_eq (h : core.Holds initial m) {hashSize : Nat} (hsize : hashSize ≤ 8 * T.element.size) (room : Nat) :
    getHash hashSize core room =
      ((construction T initial hashSize).digest m).take (min room hashSize / T.element.size * T.element.size) ++
        List.replicate (min room hashSize % T.element.size) 0 := by
  have hpadded := pad_holds h hashSize
  have hrest : (core.pad.m_block.bytes.take core.pad.m_fill).length < T.blockSize := by
    rw [List.length_take, core.pad.m_block.length_bytes]
    exact Nat.lt_of_le_of_lt (Nat.min_le_left _ _) core.pad.fill_lt
  have hdigest := Construction.output_eq_digest (c := construction T initial hashSize) hpadded.absorbed hrest
  have hle : min room hashSize / T.element.size ≤ 8 :=
    Nat.div_le_of_le_mul (by rw [Nat.mul_comm]; exact (Nat.min_le_right _ _).trans hsize)
  have hwhole : min room hashSize / T.element.size * T.element.size ≤ hashSize :=
    (Nat.div_mul_le_self _ _).trans (Nat.min_le_right _ _)
  rw [getHash, packArray_eq T.element hle, ← hdigest]
  show _ = ((core.pad.m_hs.toList.flatMap T.element.pack).take hashSize).take _ ++ _
  rw [List.take_take, Nat.min_eq_left hwhole]

def hashOf (T : SHA2Traits W) (initial : SHA2State W) (hashSize : Nat) : Hash (SHA2Core T) :=
  ⟨fun core => core.init initial, add, hashSize, T.blockSize, getHash hashSize⟩

/-- **SHA-2 computes its construction**, for every initial state and every hash size of whole words. -/
theorem computes (T : SHA2Traits W) (initial : SHA2State W) {hashSize : Nat} (hpos : 0 < hashSize)
    (hsize : hashSize ≤ 8 * T.element.size) (hwords : hashSize % T.element.size = 0) :
    (hashOf T initial hashSize).Computes (Holds initial) (construction T initial hashSize).digest := by
  have hlength : ∀ m, ((construction T initial hashSize).digest m).length = hashSize := by
    intro m
    show ((_ : Bytes).take hashSize).length = hashSize
    rw [List.length_take, length_flatMap_pack]
    exact Nat.min_eq_left hsize
  refine ⟨fun core => init_holds core initial, fun h data => add_holds h data, fun {core m} h room hroom => ?_, hlength,
    hpos⟩
  have hmin : min room hashSize = hashSize := Nat.min_eq_right hroom
  have hwhole : hashSize / T.element.size * T.element.size = hashSize :=
    Nat.div_mul_cancel (Nat.dvd_of_mod_eq_zero hwords)
  show getHash hashSize core room = _
  rw [getHash_eq h hsize, hmin, hwhole, hwords, List.replicate_zero, List.append_nil,
    List.take_of_length_le (hlength m).le]

end SHA2Core

/-! ### The four classes -/

def sha224 : Hash (SHA2Core sha2_32) := SHA2Core.hashOf sha2_32 init224 28

def sha256 : Hash (SHA2Core sha2_32) := SHA2Core.hashOf sha2_32 init256 32

def sha384 : Hash (SHA2Core sha2_64) := SHA2Core.hashOf sha2_64 init384 48

def sha512 : Hash (SHA2Core sha2_64) := SHA2Core.hashOf sha2_64 init512 64

end Afl.Checksums
