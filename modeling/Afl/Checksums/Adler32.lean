import Afl.Checksums.Checksum

/-!
# Adler-32

`afl/checksums/adler32.cpp`. The two sums are reduced every few thousand bytes only; no addition overflows meanwhile,
and the result is that of a reduction behind each byte.
-/

namespace Afl.Checksums.Adler32

def BASE : BitVec 32 := 65521#32

/-- The variables of the loop. -/
structure State where
  s1 : BitVec 32
  s2 : BitVec 32
  counter : BitVec 32

def State.start (prev : BitVec 32) : State where
  s1 := prev &&& 0xFFFF#32
  s2 := prev >>> 16
  counter := 0#32

/-- The first half of the loop body: the counter, and the reduction. -/
def State.count (s : State) : State :=
  let counter := s.counter + 1#32
  if 5500#32 < counter then ⟨s.s1 % BASE, s.s2 % BASE, 0#32⟩ else { s with counter }

def State.accumulate (s : State) (p : UInt8) : State :=
  let s1 := s.s1 + p.toBitVec.setWidth 32
  { s with s1, s2 := s.s2 + s1 }

def State.addByte (s : State) (p : UInt8) : State := s.count.accumulate p

def State.result (s : State) : BitVec 32 := ((s.s2 % BASE) <<< 16) ||| (s.s1 % BASE)

def add (data : Bytes) (prev : BitVec 32) : BitVec 32 := (data.foldl State.addByte (State.start prev)).result

example : add (lit "Wikipedia") 1#32 = 0x11E60398#32 := by decide

/-- None of the three additions for a byte overflows. -/
def State.Exact (s : State) (p : UInt8) : Prop :=
  s.counter.toNat + 1 < 2 ^ 32 ∧ s.count.s1.toNat + p.toNat < 2 ^ 32 ∧
    s.count.s2.toNat + (s.count.s1.toNat + p.toNat) < 2 ^ 32

/-- The two halves of a checksum. -/
def halves (x : BitVec 32) : Nat × Nat := (x.toNat % 65536, x.toNat / 65536)

def reducedByte (sums : Nat × Nat) (p : UInt8) : Nat × Nat :=
  let a := (sums.1 + p.toNat) % 65521
  (a, (sums.2 + a) % 65521)

/-- The sums at the end; without data they are reduced as well. -/
def reducedSums (sums : Nat × Nat) (data : Bytes) : Nat × Nat :=
  let last := data.foldl reducedByte sums
  (last.1 % 65521, last.2 % 65521)

/-! ### The bounds -/

/-- What `m` bytes can have made of sums that were at most `b`. -/
structure State.Bounded (b m : Nat) (s : State) : Prop where
  s1 : s.s1.toNat ≤ b + 255 * m
  s2 : 2 * s.s2.toNat ≤ (2 * b + 255 * m) * (m + 1)

variable {s : State}

theorem State.Bounded.accumulate {b m : Nat} (hs : s.Bounded b m) (p : UInt8) (top : Nat) (hm : m + 1 ≤ top)
    (htop : (2 * b + 255 * top) * (top + 1) < 2 ^ 33) :
    s.s1.toNat + p.toNat < 2 ^ 32 ∧ s.s2.toNat + (s.s1.toNat + p.toNat) < 2 ^ 32 ∧
      (s.accumulate p).s1.toNat = s.s1.toNat + p.toNat ∧
      (s.accumulate p).s2.toNat = s.s2.toNat + (s.s1.toNat + p.toNat) ∧ (s.accumulate p).Bounded b (m + 1) := by
  have hp := p.toNat_lt
  have hs1 := hs.s1
  have hs2 := hs.s2
  have hgrow : (2 * b + 255 * m) * (m + 1) + 2 * (b + 255 * m + 255) = (2 * b + 255 * (m + 1)) * (m + 1 + 1) := by ring
  have hlimit : (2 * b + 255 * (m + 1)) * (m + 1 + 1) ≤ (2 * b + 255 * top) * (top + 1) :=
    Nat.mul_le_mul (by omega) (by omega)
  have hsum : 2 * (s.s2.toNat + (s.s1.toNat + p.toNat)) ≤ (2 * b + 255 * (m + 1)) * (m + 1 + 1) := by omega
  have hfirst : (s.s1 + p.toBitVec.setWidth 32).toNat = s.s1.toNat + p.toNat := by
    rw [BitVec.toNat_add, BitVec.toNat_setWidth, UInt8.toNat_toBitVec]
    omega
  have hsecond : (s.s2 + (s.s1 + p.toBitVec.setWidth 32)).toNat = s.s2.toNat + (s.s1.toNat + p.toNat) := by
    rw [BitVec.toNat_add, hfirst]
    omega
  refine ⟨by omega, by omega, hfirst, hsecond, ?_, ?_⟩
  · show (s.s1 + p.toBitVec.setWidth 32).toNat ≤ _
    omega
  · show 2 * (s.s2 + (s.s1 + p.toBitVec.setWidth 32)).toNat ≤ _
    rwa [hsecond]

/-- The loop invariant. The halves of the previous checksum take 5500 bytes before the first reduction, reduced sums
5501 bytes before the next one, as the byte that resets the counter is not counted. -/
def State.Deferred (s : State) : Prop :=
  s.counter.toNat ≤ 5500 ∧ (s.Bounded 65535 s.counter.toNat ∨ s.Bounded 65520 (s.counter.toNat + 1))

/-- The sums of the loop stand for reduced sums. -/
def State.Represents (s : State) (sums : Nat × Nat) : Prop :=
  s.s1.toNat ≡ sums.1 [MOD 65521] ∧ s.s2.toNat ≡ sums.2 [MOD 65521]

theorem State.toNat_count (s : State) (hs : s.counter.toNat ≤ 5500) :
    (s.counter + 1#32).toNat = s.counter.toNat + 1 := by
  rw [BitVec.toNat_add]
  show (s.counter.toNat + 1) % 2 ^ 32 = _
  omega

theorem State.count_counted (hs : s.counter.toNat < 5500) :
    s.count = { s with counter := s.counter + 1#32 } := by
  have hmore : ¬5500#32 < s.counter + 1#32 := by
    rw [BitVec.lt_def, s.toNat_count (Nat.le_of_lt hs)]
    show ¬5500 < _
    omega
  rw [State.count]
  exact if_neg hmore

theorem State.count_reduced (hs : s.counter.toNat = 5500) :
    s.count = ⟨s.s1 % BASE, s.s2 % BASE, 0#32⟩ := by
  have hmore : 5500#32 < s.counter + 1#32 := by
    rw [BitVec.lt_def, s.toNat_count hs.le, hs]
    decide
  rw [State.count]
  exact if_pos hmore

theorem toNat_mod_BASE (x : BitVec 32) : (x % BASE).toNat = x.toNat % 65521 := BitVec.toNat_umod

/-- Between the two halves of the loop body. -/
def State.Counted (s : State) : Prop :=
  s.counter.toNat ≤ 5500 ∧
    ((∃ n, s.counter.toNat = n + 1 ∧ s.Bounded 65535 n) ∨ s.Bounded 65520 s.counter.toNat)

theorem State.Deferred.count (hs : s.Deferred) :
    s.count.Counted ∧ ∀ sums, s.Represents sums → s.count.Represents sums := by
  obtain ⟨hcounter, hbounded⟩ := hs
  rcases Nat.lt_or_ge s.counter.toNat 5500 with hless | hmore
  · have hnext := s.toNat_count hcounter
    rw [State.count_counted hless]
    refine ⟨⟨?_, ?_⟩, fun sums h => h⟩
    · show (s.counter + 1#32).toNat ≤ 5500
      omega
    · rcases hbounded with hfirst | hlater
      · exact .inl ⟨s.counter.toNat, hnext, hfirst.s1, hfirst.s2⟩
      · refine .inr ?_
        show State.Bounded _ (s.counter + 1#32).toNat _
        rw [hnext]
        exact ⟨hlater.s1, hlater.s2⟩
  · rw [State.count_reduced (Nat.le_antisymm hcounter hmore)]
    have h1 : (s.s1 % BASE).toNat ≤ 65520 := by
      rw [toNat_mod_BASE]
      omega
    have h2 : (s.s2 % BASE).toNat ≤ 65520 := by
      rw [toNat_mod_BASE]
      omega
    have hreduced : State.Bounded 65520 0 ⟨s.s1 % BASE, s.s2 % BASE, 0#32⟩ :=
      ⟨h1.trans (by omega), (Nat.mul_le_mul_left 2 h2).trans (by omega)⟩
    refine ⟨⟨Nat.zero_le _, .inr hreduced⟩, fun sums h => ⟨?_, ?_⟩⟩
    · show (s.s1 % BASE).toNat ≡ sums.1 [MOD 65521]
      rw [toNat_mod_BASE]
      exact (Nat.mod_modEq _ _).trans h.1
    · show (s.s2 % BASE).toNat ≡ sums.2 [MOD 65521]
      rw [toNat_mod_BASE]
      exact (Nat.mod_modEq _ _).trans h.2

theorem State.Counted.accumulate (hs : s.Counted) (p : UInt8) :
    s.s1.toNat + p.toNat < 2 ^ 32 ∧ s.s2.toNat + (s.s1.toNat + p.toNat) < 2 ^ 32 ∧ (s.accumulate p).Deferred ∧
      ∀ sums, s.Represents sums → (s.accumulate p).Represents (reducedByte sums p) := by
  obtain ⟨hcounter, hbounded⟩ := hs
  have hsums : (s.accumulate p).s1.toNat = s.s1.toNat + p.toNat →
      (s.accumulate p).s2.toNat = s.s2.toNat + (s.s1.toNat + p.toNat) →
      ∀ sums, s.Represents sums → (s.accumulate p).Represents (reducedByte sums p) := by
    intro h1 h2 sums h
    have hfirst : s.s1.toNat + p.toNat ≡ (sums.1 + p.toNat) % 65521 [MOD 65521] :=
      (h.1.add_right _).trans (Nat.mod_modEq _ _).symm
    refine ⟨?_, ?_⟩
    · rwa [h1]
    · rw [h2]
      exact (h.2.add hfirst).trans (Nat.mod_modEq _ _).symm
  rcases hbounded with ⟨n, hn, hfirst⟩ | hlater
  · obtain ⟨hexact1, hexact2, h1, h2, hnext⟩ := hfirst.accumulate p 5500 (by omega) (by omega)
    exact ⟨hexact1, hexact2, ⟨hcounter, .inl (hn ▸ hnext)⟩, hsums h1 h2⟩
  · obtain ⟨hexact1, hexact2, h1, h2, hnext⟩ := hlater.accumulate p 5501 (by omega) (by omega)
    exact ⟨hexact1, hexact2, ⟨hcounter, .inr hnext⟩, hsums h1 h2⟩

theorem State.Deferred.addByte (hs : s.Deferred) (p : UInt8) :
    s.Exact p ∧ (s.addByte p).Deferred ∧
      ∀ sums, s.Represents sums → (s.addByte p).Represents (reducedByte sums p) := by
  obtain ⟨hcounted, hsame⟩ := hs.count
  obtain ⟨hfirst, hsecond, hdeferred, hsums⟩ := hcounted.accumulate p
  have hcounter : s.counter.toNat + 1 < 2 ^ 32 := by
    have := hs.1
    omega
  exact ⟨⟨hcounter, hfirst, hsecond⟩, hdeferred, fun sums h => hsums sums (hsame sums h)⟩

/-! ### The result -/

theorem halves_fst (x : BitVec 32) : (x &&& 0xFFFF#32).toNat = (halves x).1 := by
  rw [BitVec.toNat_and]
  exact Nat.and_two_pow_sub_one_eq_mod x.toNat 16

theorem halves_snd (x : BitVec 32) : (x >>> 16).toNat = (halves x).2 := by
  rw [BitVec.toNat_ushiftRight, Nat.shiftRight_eq_div_pow]
  rfl

theorem State.start_deferred (prev : BitVec 32) : (State.start prev).Deferred := by
  have hprev := prev.isLt
  have h1 : (State.start prev).s1.toNat = prev.toNat % 65536 := halves_fst prev
  have h2 : (State.start prev).s2.toNat = prev.toNat / 65536 := halves_snd prev
  have hbounded : (State.start prev).Bounded 65535 0 := ⟨by omega, by omega⟩
  exact ⟨Nat.zero_le _, .inl hbounded⟩

theorem State.start_represents (prev : BitVec 32) : (State.start prev).Represents (halves prev) := by
  constructor
  · exact congrArg (· % 65521) (halves_fst prev)
  · exact congrArg (· % 65521) (halves_snd prev)

theorem State.Deferred.addBytes (hs : s.Deferred) {sums : Nat × Nat} (h : s.Represents sums) (data : Bytes) :
    (data.foldl State.addByte s).Deferred ∧ (data.foldl State.addByte s).Represents (data.foldl reducedByte sums) := by
  induction data generalizing s sums with
  | nil => exact ⟨hs, h⟩
  | cons p data ih =>
    obtain ⟨-, hnext, hsums⟩ := hs.addByte p
    exact ih hnext (hsums sums h)

theorem halves_result (s : State) : halves s.result = (s.s1.toNat % 65521, s.s2.toNat % 65521) := by
  have hlow : (s.s1 % BASE).toNat < 2 ^ 16 := by
    rw [toNat_mod_BASE]
    omega
  have hhigh : (s.s2 % BASE).toNat < 2 ^ 16 := by
    rw [toNat_mod_BASE]
    omega
  have hshift : ((s.s2 % BASE) <<< 16).toNat = (s.s2 % BASE).toNat <<< 16 := by
    rw [BitVec.toNat_shiftLeft, Nat.shiftLeft_eq]
    omega
  have hvalue : s.result.toNat = 65536 * (s.s2 % BASE).toNat + (s.s1 % BASE).toNat := by
    rw [State.result, BitVec.toNat_or, hshift, ← Nat.shiftLeft_add_eq_or_of_lt hlow, Nat.shiftLeft_eq, Nat.mul_comm]
  rw [halves, hvalue, ← toNat_mod_BASE, ← toNat_mod_BASE]
  exact Prod.ext (by omega) (by omega)

theorem halves_add (data : Bytes) (prev : BitVec 32) : halves (add data prev) = reducedSums (halves prev) data := by
  have hsums := ((State.start_deferred prev).addBytes (State.start_represents prev) data).2
  rw [add, halves_result]
  exact Prod.ext hsums.1 hsums.2

theorem halves_injective {x y : BitVec 32} (h : halves x = halves y) : x = y := by
  have h1 : x.toNat % 65536 = y.toNat % 65536 := congrArg Prod.fst h
  have h2 : x.toNat / 65536 = y.toNat / 65536 := congrArg Prod.snd h
  refine BitVec.eq_of_toNat_eq ?_
  omega

theorem reducedByte_congr {a b : Nat × Nat} (h1 : a.1 ≡ b.1 [MOD 65521]) (h2 : a.2 ≡ b.2 [MOD 65521]) (p : UInt8) :
    reducedByte a p = reducedByte b p := by
  have hfirst : (a.1 + p.toNat) % 65521 = (b.1 + p.toNat) % 65521 := h1.add_right _
  refine Prod.ext hfirst ?_
  show (a.2 + (a.1 + p.toNat) % 65521) % 65521 = (b.2 + (b.1 + p.toNat) % 65521) % 65521
  rw [hfirst]
  exact h2.add_right _

theorem reducedSums_append (sums : Nat × Nat) (a b : Bytes) :
    reducedSums (reducedSums sums a) b = reducedSums sums (a ++ b) := by
  rw [reducedSums, reducedSums, reducedSums, List.foldl_append]
  cases b with
  | nil => exact Prod.ext (Nat.mod_mod _ _) (Nat.mod_mod _ _)
  | cons p b =>
    rw [List.foldl_cons, List.foldl_cons, reducedByte_congr (Nat.mod_modEq _ _) (Nat.mod_modEq _ _)]

theorem add_add (a b : Bytes) (prev : BitVec 32) : add b (add a prev) = add (a ++ b) prev := by
  refine halves_injective ?_
  rw [halves_add, halves_add, halves_add, reducedSums_append]

/-- **Adler-32.** No addition overflows, whatever has been added before; the halves of the result are the sums that are
reduced behind each byte; and where the data is cut does not matter. -/
theorem add_exact :
    (∀ (data : Bytes) (prev : BitVec 32) (p : UInt8), (data.foldl State.addByte (State.start prev)).Exact p) ∧
      (∀ data prev, halves (add data prev) = reducedSums (halves prev) data) ∧
      ∀ a b prev, add b (add a prev) = add (a ++ b) prev := by
  refine ⟨fun data prev p => ?_, halves_add, add_add⟩
  have hdeferred := ((State.start_deferred prev).addBytes (State.start_represents prev) data).1
  exact (hdeferred.addByte p).1

end Afl.Checksums.Adler32
