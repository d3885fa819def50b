import Afl.Base.Bytes
import Afl.Lib.ShiftXor

/-!
# Checksums

`afl/checksums/crc16.cpp` and `crc32.cpp`, with the invariant that `checksum.hpp` documents:
`add(wholeBlock, n) = add(secondHalf, add(firstHalf, n))`. A `uint32_t` is a `BitVec 32`.
-/

namespace Afl.Checksums

/-! ### Cyclic redundancy checks -/

namespace CRC

variable {w : Nat}

/-- The loop body of `init`. -/
def initBit (poly n : BitVec w) : BitVec w := if n &&& 1#w ≠ 0#w then poly ^^^ (n >>> 1) else n >>> 1

/-- `init`: the content of `m_table`. -/
def init (poly : BitVec w) : Vector (BitVec w) 256 := Vector.ofFn fun i => (initBit poly)^[8] (BitVec.ofNat w i)

theorem toNat_and_255_lt (x : BitVec w) : (x &&& 255#w).toNat < 256 := by
  rw [BitVec.toNat_and, BitVec.toNat_ofNat]
  exact (Nat.and_le_right.trans (Nat.mod_le _ _)).trans_lt (by decide)

/-- The loop body of `add`. -/
def addByte (m_table : Vector (BitVec w) 256) (accum : BitVec w) (p : UInt8) : BitVec w :=
  m_table.get ⟨((p.toBitVec.setWidth w ^^^ accum) &&& 255#w).toNat, toNat_and_255_lt _⟩ ^^^ (accum >>> 8)

/-- The data as a stream of bits, the lowest bit of each byte first. -/
def dataBits (data : Bytes) : List Bool := data.flatMap fun p => ShiftXor.lowBits 8 p.toBitVec

theorem initBit_eq (poly n : BitVec w) : initBit poly n = ShiftXor.shift poly n := by
  have hbit : n &&& 1#w ≠ 0#w ↔ n.getLsbD 0 = true := by
    rw [BitVec.and_one_eq_setWidth_ofBool_getLsbD]
    cases w with
    | zero => simp
    | succ w => cases n.getLsbD 0 <;> simp
  rw [initBit, ShiftXor.shift]
  exact if_congr hbit rfl rfl

theorem init_get (poly : BitVec w) (i : Fin 256) :
    (init poly).get i = (ShiftXor.shift poly)^[8] (BitVec.ofNat w i) := by
  rw [init, ← funext (initBit_eq poly)]
  exact Vector.getElem_ofFn i.isLt

/-- **One lookup is a division by eight bits.** -/
theorem addByte_init (hw : 8 ≤ w) (poly accum : BitVec w) (p : UInt8) :
    addByte (init poly) accum p = ShiftXor.divide poly accum (ShiftXor.lowBits 8 p.toBitVec) := by
  have hbyte : p.toBitVec.setWidth w >>> 8 = 0#w := by
    rw [← BitVec.setWidth_ushiftRight hw, BitVec.ushiftRight_eq_zero (Nat.le_refl 8), BitVec.setWidth_zero]
  have hrest : (accum ^^^ p.toBitVec.setWidth w) >>> 8 = accum >>> 8 := by
    rw [BitVec.ushiftRight_xor_distrib, hbyte, BitVec.xor_zero]
  rw [← ShiftXor.lowBits_setWidth hw, ShiftXor.divide_lowBits poly 8 accum hbyte, ShiftXor.iterate_shift_eq, hrest,
    addByte, init_get, BitVec.ofNat_toNat, BitVec.setWidth_eq, BitVec.xor_comm accum]
  rfl

theorem addBytes_init (hw : 8 ≤ w) (poly accum : BitVec w) (data : Bytes) :
    data.foldl (addByte (init poly)) accum = ShiftXor.divide poly accum (dataBits data) := by
  induction data generalizing accum with
  | nil => rfl
  | cons p data ih =>
    rw [List.foldl_cons, ih, addByte_init hw, ← ShiftXor.divide_append]
    rfl

/-- The messages differ in at most `w` bits in a row. -/
def Burst (w : Nat) (a b : Bytes) : Prop :=
  ∃ first x y last : List Bool, dataBits a = first ++ x ++ last ∧ dataBits b = first ++ y ++ last ∧
    x.length = y.length ∧ x.length ≤ w ∧ x ≠ y

theorem Burst.addBytes_ne {n : Nat} (hn : 8 ≤ n + 1) {poly : BitVec (n + 1)} (hpoly : poly.getLsbD n = true)
    {a b : Bytes} (h : Burst (n + 1) a b) (accum : BitVec (n + 1)) :
    a.foldl (addByte (init poly)) accum ≠ b.foldl (addByte (init poly)) accum := by
  obtain ⟨first, x, y, last, ha, hb, hlength, hshort, hne⟩ := h
  rw [addBytes_init hn, addBytes_init hn, ha, hb]
  exact ShiftXor.divide_ne hpoly accum first last hlength hshort hne

end CRC

structure CRC32 where
  m_table : Vector (BitVec 32) 256

namespace CRC32

def new (poly : BitVec 32) : CRC32 where
  m_table := CRC.init poly

def add (crc : CRC32) (data : Bytes) (prev : BitVec 32) : BitVec 32 :=
  ~~~data.foldl (CRC.addByte crc.m_table) (~~~prev)

/-- The zlib polynomial. -/
def getDefaultInstance : CRC32 := new 0xEDB88320#32

theorem add_add (crc : CRC32) (a b : Bytes) (prev : BitVec 32) : crc.add b (crc.add a prev) = crc.add (a ++ b) prev := by
  rw [add, add, add, BitVec.not_not, List.foldl_append]

end CRC32

structure CRC16 where
  m_table : Vector (BitVec 16) 256

namespace CRC16

def new (poly : BitVec 16) : CRC16 where
  m_table := CRC.init poly

def add (crc : CRC16) (data : Bytes) (prev : BitVec 16) : BitVec 16 := data.foldl (CRC.addByte crc.m_table) prev

/-- The CCITT polynomial. -/
def getDefaultInstance : CRC16 := new 0x8408#16

theorem add_add (crc : CRC16) (a b : Bytes) (prev : BitVec 16) : crc.add b (crc.add a prev) = crc.add (a ++ b) prev :=
  List.foldl_append.symm

end CRC16

/-- **The table method is the division bit by bit**, between two inversions for `CRC32`. -/
theorem crc_eq_divide :
    (∀ poly data prev, (CRC32.new poly).add data prev = ~~~ShiftXor.divide poly (~~~prev) (CRC.dataBits data)) ∧
      (∀ poly data prev, (CRC16.new poly).add data prev = ShiftXor.divide poly prev (CRC.dataBits data)) ∧
      (∀ poly a b prev,
        (CRC32.new poly).add b ((CRC32.new poly).add a prev) = (CRC32.new poly).add (a ++ b) prev) ∧
      ∀ poly a b prev, (CRC16.new poly).add b ((CRC16.new poly).add a prev) = (CRC16.new poly).add (a ++ b) prev := by
  refine ⟨fun poly data prev => ?_, fun poly data prev => ?_, fun poly => (CRC32.new poly).add_add,
    fun poly => (CRC16.new poly).add_add⟩
  · rw [CRC32.add, CRC32.new, CRC.addBytes_init (by decide)]
  · rw [CRC16.add, CRC16.new, CRC.addBytes_init (by decide)]

example : CRC32.getDefaultInstance.add (lit "123456789") 0#32 = 0xCBF43926#32 := by decide +kernel

/-- **Errors are detected.** With a polynomial that has a constant term, a checksum tells apart any two messages that
differ in a burst of at most as many bits as it has. -/
theorem crc_detects_bursts {a b : Bytes} :
    (∀ poly : BitVec 32, poly.getLsbD 31 = true → CRC.Burst 32 a b →
      ∀ prev, (CRC32.new poly).add a prev ≠ (CRC32.new poly).add b prev) ∧
    ∀ poly : BitVec 16, poly.getLsbD 15 = true → CRC.Burst 16 a b →
      ∀ prev, (CRC16.new poly).add a prev ≠ (CRC16.new poly).add b prev := by
  refine ⟨fun poly hpoly hburst prev heq => ?_, fun poly hpoly hburst prev => ?_⟩
  · exact hburst.addBytes_ne (by decide) hpoly (~~~prev) (BitVec.not_inj.mp heq)
  · exact hburst.addBytes_ne (by decide) hpoly prev

theorem crc_detects_bursts_default :
    CRC32.getDefaultInstance.add (lit "abc") 0 ≠ CRC32.getDefaultInstance.add (lit "axc") 0 ∧
      CRC16.getDefaultInstance.add (lit "abc") 0 ≠ CRC16.getDefaultInstance.add (lit "axc") 0 := by
  have hburst : ∀ w, 8 ≤ w → CRC.Burst w (lit "abc") (lit "axc") := fun w hw =>
    ⟨CRC.dataBits (lit "a"), CRC.dataBits (lit "b"), CRC.dataBits (lit "x"), CRC.dataBits (lit "c"), rfl, rfl, rfl, hw,
      by decide⟩
  exact ⟨crc_detects_bursts.1 _ (by decide) (hburst 32 (by decide)) 0,
    crc_detects_bursts.2 _ (by decide) (hburst 16 (by decide)) 0⟩

end Afl.Checksums
