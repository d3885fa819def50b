import Afl.Base.Bytes

/-!
# Packing words

`afl/bits`: words as bytes in either order, arrays of words as byte buffers, rotation, and the fixed-size byte arrays
that the users of these functions keep.
-/

namespace Afl

namespace Bits

/-- An element descriptor: how a word is packed into the bytes of its `Bytes_t`. -/
structure Element (W : Type) where
  size : Nat
  pack : W → Bytes
  unpack : Bytes → W
  length_pack : ∀ word, (pack word).length = size

def at32 (bytes : Bytes) (i : Nat) : UInt32 := (bytes.getD i 0).toUInt32

def at64 (bytes : Bytes) (i : Nat) : UInt64 := (bytes.getD i 0).toUInt64

def uInt32LE : Element UInt32 where
  size := 4
  pack word := [(word &&& 255).toUInt8, ((word >>> 8) &&& 255).toUInt8, ((word >>> 16) &&& 255).toUInt8,
    ((word >>> 24) &&& 255).toUInt8]
  unpack bytes := at32 bytes 0 + (at32 bytes 1 <<< 8) + (at32 bytes 2 <<< 16) + (at32 bytes 3 <<< 24)
  length_pack _ := rfl

def uInt32BE : Element UInt32 where
  size := 4
  pack word := [((word >>> 24) &&& 255).toUInt8, ((word >>> 16) &&& 255).toUInt8, ((word >>> 8) &&& 255).toUInt8,
    (word &&& 255).toUInt8]
  unpack bytes := at32 bytes 3 + (at32 bytes 2 <<< 8) + (at32 bytes 1 <<< 16) + (at32 bytes 0 <<< 24)
  length_pack _ := rfl

def uInt64LE : Element UInt64 where
  size := 8
  pack word := [(word &&& 255).toUInt8, ((word >>> 8) &&& 255).toUInt8, ((word >>> 16) &&& 255).toUInt8,
    ((word >>> 24) &&& 255).toUInt8, ((word >>> 32) &&& 255).toUInt8, ((word >>> 40) &&& 255).toUInt8,
    ((word >>> 48) &&& 255).toUInt8, ((word >>> 56) &&& 255).toUInt8]
  unpack bytes := at64 bytes 0 + (at64 bytes 1 <<< 8) + (at64 bytes 2 <<< 16) + (at64 bytes 3 <<< 24) +
    (at64 bytes 4 <<< 32) + (at64 bytes 5 <<< 40) + (at64 bytes 6 <<< 48) + (at64 bytes 7 <<< 56)
  length_pack _ := rfl

def uInt64BE : Element UInt64 where
  size := 8
  pack word := [((word >>> 56) &&& 255).toUInt8, ((word >>> 48) &&& 255).toUInt8, ((word >>> 40) &&& 255).toUInt8,
    ((word >>> 32) &&& 255).toUInt8, ((word >>> 24) &&& 255).toUInt8, ((word >>> 16) &&& 255).toUInt8,
    ((word >>> 8) &&& 255).toUInt8, (word &&& 255).toUInt8]
  unpack bytes := at64 bytes 7 + (at64 bytes 6 <<< 8) + (at64 bytes 5 <<< 16) + (at64 bytes 4 <<< 24) +
    (at64 bytes 3 <<< 32) + (at64 bytes 2 <<< 40) + (at64 bytes 1 <<< 48) + (at64 bytes 0 <<< 56)
  length_pack _ := rfl

section arrays

variable {W : Type} (e : Element W)

theorem length_flatMap_pack (words : List W) : (words.flatMap e.pack).length = words.length * e.size := by
  induction words with
  | nil => rw [List.length_nil, Nat.zero_mul]; rfl
  | cons word words ih =>
    rw [List.flatMap_cons, List.length_append, ih, e.length_pack, List.length_cons, Nat.succ_mul, Nat.add_comm]

variable [OfNat W 0]

/-- `unpackArray`: fill `count` elements from a byte array, with 0 where its bytes do not suffice. -/
def unpackArray : Nat → Bytes → List W
  | 0, _ => []
  | count + 1, bytes =>
    if e.size ≤ bytes.length then e.unpack (bytes.take e.size) :: unpackArray count (bytes.drop e.size)
    else 0 :: unpackArray count bytes

/-- The loop of `packArray` over the complete elements of the output. -/
def packElements : Nat → List W → Bytes
  | 0, _ => []
  | count + 1, [] => e.pack 0 ++ packElements count []
  | count + 1, word :: words => e.pack word ++ packElements count words

/-- `packArray` into an output of `room` bytes; a partial element at its end is filled with 0. -/
def packArray (room : Nat) (words : List W) : Bytes :=
  packElements e (room / e.size) words ++ List.replicate (room % e.size) 0

theorem packElements_eq_take {count : Nat} {words : List W} (hcount : count ≤ words.length) :
    packElements e count words = (words.flatMap e.pack).take (count * e.size) := by
  induction count generalizing words with
  | zero => rw [packElements, Nat.zero_mul, List.take_zero]
  | succ count ih =>
    cases words with
    | nil => exact absurd hcount (Nat.not_succ_le_zero count)
    | cons word words =>
      have hlength := e.length_pack word
      have hsize : (count + 1) * e.size = (e.pack word).length + count * e.size := by
        rw [Nat.succ_mul, hlength, Nat.add_comm]
      rw [packElements, ih (Nat.le_of_succ_le_succ hcount), List.flatMap_cons, hsize, List.take_length_add_append]

theorem packArray_eq {room : Nat} {words : List W} (hroom : room / e.size ≤ words.length) :
    packArray e room words =
      (words.flatMap e.pack).take (room / e.size * e.size) ++ List.replicate (room % e.size) 0 := by
  rw [packArray, packElements_eq_take e hroom]

theorem packArray_exact (hsize : 0 < e.size) {count : Nat} {words : List W} (hcount : count ≤ words.length) :
    packArray e (count * e.size) words = (words.flatMap e.pack).take (count * e.size) := by
  rw [packArray_eq e (by rwa [Nat.mul_div_cancel _ hsize]), Nat.mul_div_cancel _ hsize, Nat.mul_mod_left,
    List.replicate_zero, List.append_nil]

end arrays

/-! ### Byte arrays -/

/-- `Memory::copyFrom`: the content of the destination afterwards. -/
def copyFrom (dest src : Bytes) : Bytes := src.take dest.length ++ dest.drop src.length

theorem copyFrom_of_le {dest src : Bytes} (h : dest.length ≤ src.length) :
    copyFrom dest src = src.take dest.length := by
  rw [copyFrom, List.drop_eq_nil_of_le h, List.append_nil]

/-- A `uint8_t[n]`. -/
structure Buffer (n : Nat) where
  bytes : Bytes
  length_bytes : bytes.length = n

namespace Buffer

variable {n : Nat}

/-- `subrange(pos).copyFrom(data)`. -/
def write (buffer : Buffer n) (pos : Nat) (data : Bytes) : Buffer n where
  bytes := buffer.bytes.take pos ++ copyFrom (buffer.bytes.drop pos) data
  length_bytes := by
    have hlength := buffer.length_bytes
    simp only [copyFrom, List.length_append, List.length_take, List.length_drop]
    omega

/-- `fill(0)`. -/
def zero (n : Nat) : Buffer n := ⟨List.replicate n 0, List.length_replicate⟩

def map (g : UInt8 → UInt8) (buffer : Buffer n) : Buffer n :=
  ⟨buffer.bytes.map g, by rw [List.length_map, buffer.length_bytes]⟩

theorem bytes_map (g : UInt8 → UInt8) (buffer : Buffer n) : (buffer.map g).bytes = buffer.bytes.map g := rfl

theorem take_write (buffer : Buffer n) {pos : Nat} {data : Bytes} (hroom : pos + data.length ≤ n) :
    (buffer.write pos data).bytes.take (pos + data.length) = buffer.bytes.take pos ++ data := by
  have hlength := buffer.length_bytes
  have htake : (buffer.bytes.take pos).length = pos := by rw [List.length_take]; omega
  have hdata : data.take (buffer.bytes.drop pos).length = data := by
    rw [List.take_of_length_le]
    rw [List.length_drop]
    omega
  show (buffer.bytes.take pos ++ (data.take (buffer.bytes.drop pos).length ++ _)).take _ = _
  rw [hdata, ← List.append_assoc, List.take_left' (by rw [List.length_append, htake])]

theorem take_write_min (buffer : Buffer n) {pos : Nat} (hpos : pos ≤ n) (data : Bytes) :
    (buffer.write pos data).bytes.take (pos + min (n - pos) data.length) =
      buffer.bytes.take pos ++ data.take (min (n - pos) data.length) := by
  have hdrop : (buffer.bytes.drop pos).length = n - pos := by rw [List.length_drop, buffer.length_bytes]
  rcases Nat.le_total data.length (n - pos) with hshort | hlong
  · rw [Nat.min_eq_right hshort, buffer.take_write (by omega), List.take_length]
  · rw [Nat.min_eq_left hlong]
    show (buffer.bytes.take pos ++ copyFrom (buffer.bytes.drop pos) data).take (pos + (n - pos)) = _
    rw [copyFrom_of_le (hdrop.trans_le hlong), hdrop, List.take_of_length_le]
    rw [List.length_append, List.length_take, List.length_take]
    omega

theorem take_write_zero (buffer : Buffer n) {data : Bytes} (hroom : data.length ≤ n) :
    (buffer.write 0 data).bytes.take data.length = data := by
  have htake := @take_write n buffer 0 data (by rwa [Nat.zero_add])
  rwa [Nat.zero_add] at htake

theorem write_all (buffer : Buffer n) {pos : Nat} {data : Bytes} (hroom : pos + data.length = n) :
    (buffer.write pos data).bytes = buffer.bytes.take pos ++ data := by
  rw [← buffer.take_write (le_of_eq hroom), List.take_of_length_le]
  rw [(buffer.write pos data).length_bytes, hroom]

theorem zero_write {data : Bytes} (hroom : data.length ≤ n) :
    ((zero n).write 0 data).bytes = data ++ List.replicate (n - data.length) 0 := by
  show data.take (List.replicate n (0 : UInt8)).length ++ (List.replicate n 0).drop data.length = _
  rw [List.length_replicate, List.take_of_length_le hroom, List.drop_replicate]

end Buffer

/-! ### Rotation -/

def rotateLeft32 (a : UInt32) (c : Nat) : UInt32 :=
  let c := c &&& 31
  if c ≠ 0 then (a <<< c.toUInt32) ||| (a >>> (32 - c).toUInt32) else a

def rotateRight32 (a : UInt32) (c : Nat) : UInt32 :=
  let c := c &&& 31
  if c ≠ 0 then (a <<< (32 - c).toUInt32) ||| (a >>> c.toUInt32) else a

def rotateRight64 (a : UInt64) (c : Nat) : UInt64 :=
  let c := c &&& 63
  if c ≠ 0 then (a <<< (64 - c).toUInt64) ||| (a >>> c.toUInt64) else a

/-! ### The bytes of a number -/

/-- The last `8 * k` bits of a number as bytes, from the lowest to the highest. -/
def littleEndian (k value : Nat) : Bytes := (List.range k).map fun i => UInt8.ofNat (value / 256 ^ i)

/-- The last `8 * k` bits of a number as bytes, from the highest to the lowest. -/
def bigEndian (k value : Nat) : Bytes := (littleEndian k value).reverse

theorem length_littleEndian (k value : Nat) : (littleEndian k value).length = k := by
  rw [littleEndian, List.length_map, List.length_range]

theorem length_bigEndian (k value : Nat) : (bigEndian k value).length = k := by
  rw [bigEndian, List.length_reverse, length_littleEndian]

theorem bigEndian_add (j k value : Nat) :
    bigEndian (j + k) value = bigEndian k (value / 256 ^ j) ++ bigEndian j value := by
  have hparts : littleEndian (j + k) value = littleEndian j value ++ littleEndian k (value / 256 ^ j) := by
    rw [littleEndian, List.range_add, List.map_append, List.map_map]
    congr 1
    apply List.map_congr_left
    intro i _
    show UInt8.ofNat (value / 256 ^ (j + i)) = UInt8.ofNat (value / 256 ^ j / 256 ^ i)
    rw [Nat.pow_add, Nat.div_div_eq_div_mul]
  rw [bigEndian, hparts, List.reverse_append]
  rfl

private theorem byte_of_word {w i : Nat} (hi : 8 * i + 8 ≤ w) (value : Nat) :
    (value % 2 ^ w) >>> (8 * i) &&& 255 = value / 256 ^ i % 2 ^ 8 := by
  have hpow : 256 ^ i = 2 ^ (8 * i) := by rw [Nat.pow_mul]
  have hsplit : 2 ^ w = 2 ^ (8 * i) * 2 ^ (w - 8 * i) := by
    rw [← Nat.pow_add]
    congr 1
    omega
  have hdvd : 2 ^ 8 ∣ 2 ^ (w - 8 * i) := Nat.pow_dvd_pow 2 (by omega)
  show (value % 2 ^ w) >>> (8 * i) &&& 2 ^ 8 - 1 = _
  rw [Nat.and_two_pow_sub_one_eq_mod, Nat.shiftRight_eq_div_pow, hsplit, Nat.mod_mul_right_div_self,
    Nat.mod_mod_of_dvd _ hdvd, hpow]

private theorem byte_of_uInt64 (value : Nat) {i : Nat} (hi : i < 8) :
    ((UInt64.ofNat value >>> UInt64.ofNat (8 * i)) &&& 255).toUInt8 = UInt8.ofNat (value / 256 ^ i) := by
  have hshift : (UInt64.ofNat (8 * i)).toNat % 64 = 8 * i := by
    rw [UInt64.toNat_ofNat']
    omega
  apply UInt8.toNat_inj.mp
  rw [UInt64.toNat_toUInt8, UInt64.toNat_and, UInt64.toNat_shiftRight, hshift, UInt64.toNat_ofNat', UInt8.toNat_ofNat']
  show ((value % 2 ^ 64) >>> (8 * i) &&& 255) % 2 ^ 8 = _
  rw [byte_of_word (by omega), Nat.mod_mod]

private theorem byte_of_uInt32 (value : Nat) {i : Nat} (hi : i < 4) :
    ((UInt32.ofNat value >>> UInt32.ofNat (8 * i)) &&& 255).toUInt8 = UInt8.ofNat (value / 256 ^ i) := by
  have hshift : (UInt32.ofNat (8 * i)).toNat % 32 = 8 * i := by
    rw [UInt32.toNat_ofNat']
    omega
  apply UInt8.toNat_inj.mp
  rw [UInt32.toNat_toUInt8, UInt32.toNat_and, UInt32.toNat_shiftRight, hshift, UInt32.toNat_ofNat', UInt8.toNat_ofNat']
  show ((value % 2 ^ 32) >>> (8 * i) &&& 255) % 2 ^ 8 = _
  rw [byte_of_word (by omega), Nat.mod_mod]

theorem shiftLeft_three (n : Nat) : UInt64.ofNat n <<< 3 = UInt64.ofNat (8 * n) := by
  apply UInt64.toNat_inj.mp
  rw [UInt64.toNat_shiftLeft, UInt64.toNat_ofNat', UInt64.toNat_ofNat', Nat.shiftLeft_eq]
  show n % 2 ^ 64 * 2 ^ 3 % 2 ^ 64 = 8 * n % 2 ^ 64
  omega

theorem uInt64LE_pack (value : Nat) : uInt64LE.pack (UInt64.ofNat value) = littleEndian 8 value := by
  have hbytes : littleEndian 8 value =
      (List.range 8).map fun i => ((UInt64.ofNat value >>> UInt64.ofNat (8 * i)) &&& 255).toUInt8 :=
    List.map_congr_left fun i hi => (byte_of_uInt64 value (List.mem_range.mp hi)).symm
  have hlow : UInt64.ofNat value >>> UInt64.ofNat (8 * 0) = UInt64.ofNat value := UInt64.shiftRight_zero
  rw [hbytes]
  show _ :: _ = ((UInt64.ofNat value >>> UInt64.ofNat (8 * 0)) &&& 255).toUInt8 :: _
  rw [hlow]
  rfl

theorem uInt64BE_pack (value : Nat) : uInt64BE.pack (UInt64.ofNat value) = bigEndian 8 value := by
  rw [bigEndian, ← uInt64LE_pack]
  rfl

theorem uInt32BE_pack (value : Nat) : uInt32BE.pack (UInt32.ofNat value) = bigEndian 4 value := by
  have hbytes : littleEndian 4 value =
      (List.range 4).map fun i => ((UInt32.ofNat value >>> UInt32.ofNat (8 * i)) &&& 255).toUInt8 :=
    List.map_congr_left fun i hi => (byte_of_uInt32 value (List.mem_range.mp hi)).symm
  have hlow : UInt32.ofNat value >>> UInt32.ofNat (8 * 0) = UInt32.ofNat value := UInt32.shiftRight_zero
  rw [bigEndian, hbytes]
  show _ = (((UInt32.ofNat value >>> UInt32.ofNat (8 * 0)) &&& 255).toUInt8 :: _).reverse
  rw [hlow]
  rfl

end Bits

end Afl
