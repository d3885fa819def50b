import Afl.Bits.Pack
import Afl.Lib.Blocks

/-!
# Cryptographic hashes

`afl/checksums/hash.hpp` and `hash.cpp`: the interface of a hash, what an implementation owes its users, and the two
keyed functions that are built on the interface alone.
-/

namespace Afl.Checksums

open Bits

/-- Interface `Hash`. `getHash` is told the size of the caller's buffer, and yields the part of it that it returns. -/
structure Hash (σ : Type) where
  clear : σ → σ
  add : σ → Bytes → σ
  getHashSize : Nat
  getBlockSize : Nat
  getHash : σ → Nat → Bytes

/-- Why a keyed function ends early: `UnsupportedException`, or an assertion. -/
inductive Failure
  | unsupported (text : Bytes)
  | assertion
deriving DecidableEq

def maxHashSize : Nat := 64

def maxBlockSize : Nat := 128

variable {σ : Type}

namespace Hash

/-! ### `computeHMAC` -/

/-- `Bytes_t(pad).fill(0)`, `copyFrom(key)` and the loop over all of the buffer, trimmed to the block. -/
def keyPad (blockSize : Nat) (key : Bytes) (mask : UInt8) : Bytes :=
  (((Buffer.zero maxBlockSize).write 0 key).map (· ^^^ mask)).bytes.take blockSize

/-- A key longer than a block is replaced by its hash. -/
def shortenKey (hash : Hash σ) (s : σ) (key : Bytes) : σ × Bytes :=
  if hash.getBlockSize < key.length then
    let s := hash.add (hash.clear s) key
    (s, hash.getHash s maxHashSize)
  else (s, key)

def computeHMAC (hash : Hash σ) (s : σ) (key data : Bytes) : Except Failure σ :=
  if maxHashSize < hash.getHashSize ∨ maxBlockSize < hash.getBlockSize ∨ hash.getBlockSize < hash.getHashSize then
    .error (.unsupported (lit "hmac"))
  else
    let (s, key) := hash.shortenKey s key
    let s := hash.add (hash.add (hash.clear s) (keyPad hash.getBlockSize key 0x36)) data
    -- `tmp` held the hash of the key up to here
    let digest := hash.getHash s maxHashSize
    .ok (hash.add (hash.add (hash.clear s) (keyPad hash.getBlockSize key 0x5C)) digest)

/-! ### `computePBKDF2` -/

/-- The loop over the iterations behind the first one; `prev` is `prevBuffer` with the first `size` bytes in use. -/
def iterate (hash : Hash σ) (password : Bytes) (size : Nat) :
    Nat → σ → Buffer maxHashSize → Buffer maxHashSize → Except Failure (σ × Buffer maxHashSize)
  | 0, s, _, acc => .ok (s, acc)
  | more + 1, s, prev, acc =>
    match hash.computeHMAC s password (prev.bytes.take size) with
    | .error e => .error e
    | .ok s =>
      let next := hash.getHash s maxHashSize
      if next.length ≠ size then .error .assertion
      else iterate hash password size more s (prev.write 0 next) (acc.write 0 (List.zipWith (· ^^^ ·) acc.bytes next))

/-- One block of the output: the size of its hash, and the accumulator. `uninit` is what the buffers contain before. -/
def computeBlock (hash : Hash σ) (uninit : (n : Nat) → Buffer n) (password saltAndIndex : Bytes)
    (numIterations : UInt32) (s : σ) : Except Failure (σ × Nat × Buffer maxHashSize) :=
  match hash.computeHMAC s password saltAndIndex with
  | .error e => .error e
  | .ok s =>
    let first := hash.getHash s maxHashSize
    let prev := (uninit maxHashSize).write 0 first
    let acc := (uninit maxHashSize).write 0 (prev.bytes.take first.length)
    match hash.iterate password first.length (numIterations.toNat - 1) s prev acc with
    | .error e => .error e
    | .ok (s, acc) => .ok (s, first.length, acc)

def packIndex (salt saltAndIndex : Bytes) (index : UInt32) : Bytes :=
  saltAndIndex.take salt.length ++ copyFrom (saltAndIndex.drop salt.length) (uInt32BE.pack index)

def fillOutput (hash : Hash σ) (uninit : (n : Nat) → Buffer n) (password salt saltAndIndex : Bytes)
    (numIterations : UInt32) (s : σ) (index : UInt32) (out : Bytes) : Except Failure σ × Bytes :=
  if out = [] then (.ok s, []) else
    match hash.computeBlock uninit password (packIndex salt saltAndIndex (index + 1)) numIterations s with
    | .error e => (.error e, out)
    | .ok (s, size, acc) =>
      if size = 0 then (.error .assertion, out) else
        let rest := fillOutput hash uninit password salt (packIndex salt saltAndIndex (index + 1)) numIterations s
          (index + 1) (out.drop size)
        (rest.1, copyFrom (out.take size) acc.bytes ++ rest.2)
termination_by out.length
decreasing_by
  have hout : 0 < out.length := List.length_pos_of_ne_nil ‹_›
  rw [List.length_drop]
  omega

/-- What is in `out` afterwards, and how it ended. -/
def computePBKDF2 (hash : Hash σ) (uninit : (n : Nat) → Buffer n) (s : σ) (out password salt : Bytes)
    (numIterations : UInt32) : Except Failure σ × Bytes :=
  let saltAndIndex := copyFrom ((uninit (maxBlockSize + 4)).bytes.take (salt.length + 4)) salt
  if (saltAndIndex.drop salt.length).length < 4 then (.error (.unsupported (lit "pbkdf2")), out)
  else hash.fillOutput uninit password salt saltAndIndex numIterations s 0 out

/-! ### The functions of RFC 2104 and RFC 2898 -/

def hmac (digest : Bytes → Bytes) (blockSize : Nat) (key data : Bytes) : Bytes :=
  let key := if blockSize < key.length then digest key else key
  let block := key ++ List.replicate (blockSize - key.length) 0
  digest (block.map (· ^^^ 0x5C) ++ digest (block.map (· ^^^ 0x36) ++ data))

section pbkdf2

variable (prf : Bytes → Bytes → Bytes) (password salt : Bytes)

/-- `U_1` of block `i`, and the ones behind it. -/
def iterated (i : Nat) : Nat → Bytes
  | 0 => prf password (salt ++ bigEndian 4 i)
  | j + 1 => prf password (iterated i j)

/-- `U_1` xor ... xor `U_(j+1)`. -/
def exclusiveOr (i : Nat) : Nat → Bytes
  | 0 => iterated prf password salt i 0
  | j + 1 => List.zipWith (· ^^^ ·) (exclusiveOr i j) (iterated prf password salt i (j + 1))

/-- `T_k || ... || T_(k+l-1)`, for `c` iterations. -/
def blocksFrom (c k l : Nat) : Bytes := (List.range' k l).flatMap fun i => exclusiveOr prf password salt i (c - 1)

/-- PBKDF2: the first `dkLen` bytes of `T_1 || T_2 || ...`. -/
def derivedKey (c hLen dkLen : Nat) : Bytes :=
  (blocksFrom prf password salt c 1 ((dkLen + hLen - 1) / hLen)).take dkLen

theorem blocksFrom_succ (c k l : Nat) : blocksFrom prf password salt c k (l + 1) =
    exclusiveOr prf password salt k (c - 1) ++ blocksFrom prf password salt c (k + 1) l := by
  rw [blocksFrom, List.range'_succ, List.flatMap_cons]
  rfl

end pbkdf2

/-! ### What an implementation owes -/

/-- The hash value is a function of the bytes that have been added since `clear`, however they have been split. -/
structure Computes (hash : Hash σ) (Content : σ → Bytes → Prop) (digest : Bytes → Bytes) : Prop where
  clear : ∀ s, Content (hash.clear s) []
  add : ∀ {s m}, Content s m → ∀ data, Content (hash.add s data) (m ++ data)
  getHash : ∀ {s m}, Content s m → ∀ {room}, hash.getHashSize ≤ room → hash.getHash s room = digest m
  length_digest : ∀ m, (digest m).length = hash.getHashSize
  size_pos : 0 < hash.getHashSize

/-- The sizes that the keyed functions support. -/
structure Fits (hash : Hash σ) : Prop where
  hash_le_max : hash.getHashSize ≤ maxHashSize
  block_le_max : hash.getBlockSize ≤ maxBlockSize
  hash_le_block : hash.getHashSize ≤ hash.getBlockSize

variable {hash : Hash σ} {Content : σ → Bytes → Prop} {digest : Bytes → Bytes}

theorem keyPad_eq {blockSize : Nat} {key : Bytes} (hblock : blockSize ≤ maxBlockSize) (hkey : key.length ≤ blockSize)
    (mask : UInt8) :
    keyPad blockSize key mask = (key ++ List.replicate (blockSize - key.length) 0).map (· ^^^ mask) := by
  have hroom : key.length ≤ maxBlockSize := hkey.trans hblock
  rw [keyPad, Buffer.bytes_map, Buffer.zero_write hroom, ← List.map_take, List.take_append, List.take_of_length_le hkey,
    List.take_replicate, Nat.min_eq_left (Nat.sub_le_sub_right hblock key.length)]

theorem shortenKey_eq (h : hash.Computes Content digest) (hfits : hash.Fits) (s : σ) (key : Bytes) :
    (hash.shortenKey s key).2 = (if hash.getBlockSize < key.length then digest key else key) := by
  by_cases hlong : hash.getBlockSize < key.length
  · have hcontent := h.add (h.clear s) key
    rw [shortenKey, if_pos hlong, if_pos hlong]
    exact h.getHash hcontent hfits.hash_le_max
  · rw [shortenKey, if_neg hlong, if_neg hlong]

theorem length_shortenKey (h : hash.Computes Content digest) (hfits : hash.Fits) (s : σ) (key : Bytes) :
    (hash.shortenKey s key).2.length ≤ hash.getBlockSize := by
  rw [shortenKey_eq h hfits]
  split
  · rw [h.length_digest]
    exact hfits.hash_le_block
  · omega

theorem computeHMAC_spec (h : hash.Computes Content digest) (hfits : hash.Fits) (s : σ) (key data : Bytes) :
    ∃ s', hash.computeHMAC s key data = .ok s' ∧
      ∀ room, hash.getHashSize ≤ room → hash.getHash s' room = hmac digest hash.getBlockSize key data := by
  have hsizes : ¬(maxHashSize < hash.getHashSize ∨ maxBlockSize < hash.getBlockSize ∨
      hash.getBlockSize < hash.getHashSize) := by
    have hhash := hfits.hash_le_max
    have hblock := hfits.block_le_max
    have hle := hfits.hash_le_block
    omega
  have hkey := length_shortenKey h hfits s key
  have hinner := h.add (h.add (h.clear (hash.shortenKey s key).1)
    (keyPad hash.getBlockSize (hash.shortenKey s key).2 0x36)) data
  refine ⟨_, by rw [computeHMAC, if_neg hsizes], fun room hroom => ?_⟩
  rw [h.getHash (h.add (h.add (h.clear _) _) _) hroom, h.getHash hinner hfits.hash_le_max, List.nil_append,
    List.nil_append, keyPad_eq hfits.block_le_max hkey, keyPad_eq hfits.block_le_max hkey, shortenKey_eq h hfits]
  rfl

theorem length_hmac (h : hash.Computes Content digest) (blockSize : Nat) (key data : Bytes) :
    (hmac digest blockSize key data).length = hash.getHashSize := h.length_digest _

section output

variable {password salt : Bytes} {i : Nat}

theorem length_iterated (h : hash.Computes Content digest) (j : Nat) :
    (iterated (hmac digest hash.getBlockSize) password salt i j).length = hash.getHashSize := by
  cases j with
  | zero => exact length_hmac h _ _ _
  | succ j => exact length_hmac h _ _ _

theorem length_exclusiveOr (h : hash.Computes Content digest) (j : Nat) :
    (exclusiveOr (hmac digest hash.getBlockSize) password salt i j).length = hash.getHashSize := by
  induction j with
  | zero => exact length_iterated h 0
  | succ j ih => rw [exclusiveOr, List.length_zipWith, ih, length_iterated h, Nat.min_self]

theorem iterate_spec (h : hash.Computes Content digest) (hfits : hash.Fits) (more : Nat) {j : Nat} (s : σ)
    {prev acc : Buffer maxHashSize}
    (hprev : prev.bytes.take hash.getHashSize = iterated (hmac digest hash.getBlockSize) password salt i j)
    (hacc : acc.bytes.take hash.getHashSize = exclusiveOr (hmac digest hash.getBlockSize) password salt i j) :
    ∃ s' acc', hash.iterate password hash.getHashSize more s prev acc = .ok (s', acc') ∧
      acc'.bytes.take hash.getHashSize = exclusiveOr (hmac digest hash.getBlockSize) password salt i (j + more) := by
  induction more generalizing j s prev acc with
  | zero => exact ⟨s, acc, rfl, hacc⟩
  | succ more ih =>
    obtain ⟨s', hs', hhash⟩ := computeHMAC_spec h hfits s password (prev.bytes.take hash.getHashSize)
    have hnext : hash.getHash s' maxHashSize = iterated (hmac digest hash.getBlockSize) password salt i (j + 1) := by
      rw [hhash _ hfits.hash_le_max, hprev]
      rfl
    have hlength : (hash.getHash s' maxHashSize).length = hash.getHashSize := by
      rw [hnext, length_iterated h]
    have hsum : List.zipWith (· ^^^ ·) acc.bytes (hash.getHash s' maxHashSize) =
        exclusiveOr (hmac digest hash.getBlockSize) password salt i (j + 1) := by
      have hmin : min acc.bytes.length (hash.getHash s' maxHashSize).length = hash.getHashSize := by
        rw [acc.length_bytes, hlength, Nat.min_eq_right hfits.hash_le_max]
      rw [List.zipWith_eq_zipWith_take_min, hmin, hacc, List.take_of_length_le (le_of_eq hlength), hnext]
      rfl
    have hprev' : (prev.write 0 (hash.getHash s' maxHashSize)).bytes.take hash.getHashSize =
        iterated (hmac digest hash.getBlockSize) password salt i (j + 1) := by
      rw [← hlength, Buffer.take_write_zero _ (hlength.trans_le hfits.hash_le_max), hnext]
    have hacc' : (acc.write 0 (List.zipWith (· ^^^ ·) acc.bytes (hash.getHash s' maxHashSize))).bytes.take
        hash.getHashSize = exclusiveOr (hmac digest hash.getBlockSize) password salt i (j + 1) := by
      have hsumLength : (exclusiveOr (hmac digest hash.getBlockSize) password salt i (j + 1)).length =
          hash.getHashSize := length_exclusiveOr h (j + 1)
      rw [hsum, ← hsumLength, Buffer.take_write_zero _ (hsumLength.trans_le hfits.hash_le_max)]
    rw [iterate, hs']
    show ∃ s'' acc', (if (hash.getHash s' maxHashSize).length ≠ hash.getHashSize then _ else _) = _ ∧ _
    rw [if_neg (not_not.mpr hlength), Nat.add_comm more 1, ← Nat.add_assoc]
    exact ih s' hprev' hacc'

theorem computeBlock_spec (h : hash.Computes Content digest) (hfits : hash.Fits) (uninit : (n : Nat) → Buffer n)
    (password salt : Bytes) (i : Nat) (numIterations : UInt32) (s : σ) :
    ∃ s' acc, hash.computeBlock uninit password (salt ++ bigEndian 4 i) numIterations s =
        .ok (s', hash.getHashSize, acc) ∧
      acc.bytes.take hash.getHashSize =
        exclusiveOr (hmac digest hash.getBlockSize) password salt i (numIterations.toNat - 1) := by
  obtain ⟨s₁, hs₁, hhash⟩ := computeHMAC_spec h hfits s password (salt ++ bigEndian 4 i)
  have hfirst : hash.getHash s₁ maxHashSize = iterated (hmac digest hash.getBlockSize) password salt i 0 :=
    hhash _ hfits.hash_le_max
  have hlength : (hash.getHash s₁ maxHashSize).length = hash.getHashSize := by rw [hfirst, length_iterated h]
  have hroom : (hash.getHash s₁ maxHashSize).length ≤ maxHashSize := hlength.trans_le hfits.hash_le_max
  have hprev : ((uninit maxHashSize).write 0 (hash.getHash s₁ maxHashSize)).bytes.take
      (hash.getHash s₁ maxHashSize).length = hash.getHash s₁ maxHashSize := Buffer.take_write_zero _ hroom
  have hbuffer : ((uninit maxHashSize).write 0 (hash.getHash s₁ maxHashSize)).bytes.take hash.getHashSize =
      iterated (hmac digest hash.getBlockSize) password salt i 0 := by rw [← hlength, hprev, hfirst]
  obtain ⟨s₂, acc, hiterate, hacc⟩ := iterate_spec h hfits (numIterations.toNat - 1) s₁ hbuffer hbuffer
  rw [Nat.zero_add] at hacc
  refine ⟨s₂, acc, ?_, hacc⟩
  rw [computeBlock, hs₁]
  dsimp only
  rw [hprev, hlength, hiterate]

end output

theorem packIndex_eq {salt saltAndIndex : Bytes} (hsalt : saltAndIndex.take salt.length = salt)
    (hlength : saltAndIndex.length = salt.length + 4) (k : Nat) :
    packIndex salt saltAndIndex (UInt32.ofNat k + 1) = salt ++ bigEndian 4 (k + 1) := by
  have hindex : UInt32.ofNat k + 1 = UInt32.ofNat (k + 1) := (UInt32.ofNat_add k 1).symm
  have hroom : (saltAndIndex.drop salt.length).length = 4 := by
    rw [List.length_drop, hlength]
    omega
  have hdrop : (saltAndIndex.drop salt.length).drop 4 = [] := List.drop_eq_nil_of_le (le_of_eq hroom)
  rw [packIndex, hindex, uInt32BE_pack, hsalt, copyFrom, hroom, length_bigEndian, hdrop, List.append_nil,
    List.take_of_length_le (le_of_eq (length_bigEndian 4 _))]

theorem blocks_succ {hLen dkLen : Nat} (hpos : 0 < hLen) (hout : 0 < dkLen) :
    (dkLen + hLen - 1) / hLen = (dkLen - hLen + hLen - 1) / hLen + 1 := by
  by_cases hlast : dkLen ≤ hLen
  · have hone : (dkLen + hLen - 1) / hLen = 1 := Nat.div_eq_of_lt_le (by omega) (by omega)
    have hzero : (dkLen - hLen + hLen - 1) / hLen = 0 := Nat.div_eq_of_lt (by omega)
    rw [hone, hzero]
  · rw [show dkLen + hLen - 1 = (dkLen - hLen + hLen - 1) + hLen by omega, Nat.add_div_right _ hpos]

theorem fillOutput_spec (h : hash.Computes Content digest) (hfits : hash.Fits) (uninit : (n : Nat) → Buffer n)
    (password : Bytes) {salt saltAndIndex : Bytes} (numIterations : UInt32) (s : σ) (k : Nat) (out : Bytes)
    (hsalt : saltAndIndex.take salt.length = salt) (hlength : saltAndIndex.length = salt.length + 4) :
    ∃ s', hash.fillOutput uninit password salt saltAndIndex numIterations s (UInt32.ofNat k) out =
      (.ok s', (blocksFrom (hmac digest hash.getBlockSize) password salt numIterations.toNat (k + 1)
        ((out.length + hash.getHashSize - 1) / hash.getHashSize)).take out.length) := by
  induction hn : out.length using Nat.strong_induction_on generalizing out s k saltAndIndex with
  | _ n ih =>
    subst hn
    have hpos := h.size_pos
    by_cases hout : out = []
    · subst hout
      rw [fillOutput, if_pos rfl]
      exact ⟨s, rfl⟩
    · have hout' : 0 < out.length := List.length_pos_of_ne_nil hout
      have hpack := packIndex_eq hsalt hlength k
      have hindex : UInt32.ofNat k + 1 = UInt32.ofNat (k + 1) := (UInt32.ofNat_add k 1).symm
      have hsalt' : (packIndex salt saltAndIndex (UInt32.ofNat k + 1)).take salt.length = salt := by
        rw [hpack, List.take_left]
      have hlength' : (packIndex salt saltAndIndex (UInt32.ofNat k + 1)).length = salt.length + 4 := by
        rw [hpack, List.length_append, length_bigEndian]
      obtain ⟨s₁, acc, hblock, hacc⟩ := computeBlock_spec h hfits uninit password salt (k + 1) numIterations s
      obtain ⟨s₂, hrest⟩ := ih (out.drop hash.getHashSize).length (by rw [List.length_drop]; omega) s₁ (k + 1)
        (out.drop hash.getHashSize) hsalt' hlength' rfl
      have hstored : copyFrom (out.take hash.getHashSize) acc.bytes = (exclusiveOr (hmac digest hash.getBlockSize)
          password salt (k + 1) (numIterations.toNat - 1)).take out.length := by
        have hle : (out.take hash.getHashSize).length ≤ acc.bytes.length := by
          rw [acc.length_bytes, List.length_take]
          exact (Nat.min_le_left _ _).trans hfits.hash_le_max
        rw [copyFrom_of_le hle, ← hacc, List.take_take, List.length_take, Nat.min_comm]
      have hblocks : (out.length + hash.getHashSize - 1) / hash.getHashSize =
          ((out.drop hash.getHashSize).length + hash.getHashSize - 1) / hash.getHashSize + 1 := by
        rw [List.length_drop, blocks_succ hpos hout']
      rw [hpack] at hrest
      refine ⟨s₂, ?_⟩
      rw [fillOutput, if_neg hout, hpack, hblock]
      dsimp only
      rw [if_neg hpos.ne', hindex, hrest, hstored, hblocks, blocksFrom_succ, List.take_append, length_exclusiveOr h,
        List.length_drop]

theorem saltAndIndex_spec (buffer : Buffer (maxBlockSize + 4)) {salt : Bytes} (hsalt : salt.length ≤ maxBlockSize) :
    (copyFrom (buffer.bytes.take (salt.length + 4)) salt).take salt.length = salt ∧
      (copyFrom (buffer.bytes.take (salt.length + 4)) salt).length = salt.length + 4 := by
  have hroom : (buffer.bytes.take (salt.length + 4)).length = salt.length + 4 := by
    rw [List.length_take, buffer.length_bytes]
    omega
  have htake : salt.take (salt.length + 4) = salt := List.take_of_length_le (Nat.le_add_right _ _)
  rw [copyFrom, hroom, htake]
  exact ⟨List.take_left, by rw [List.length_append, List.length_drop, hroom]; omega⟩

theorem computePBKDF2_spec (h : hash.Computes Content digest) (hfits : hash.Fits) (uninit : (n : Nat) → Buffer n)
    (s : σ) (out password : Bytes) {salt : Bytes} (hsalt : salt.length ≤ maxBlockSize) (numIterations : UInt32) :
    ∃ s', hash.computePBKDF2 uninit s out password salt numIterations = (.ok s', derivedKey
      (hmac digest hash.getBlockSize) password salt numIterations.toNat hash.getHashSize out.length) := by
  obtain ⟨htake, hlength⟩ := saltAndIndex_spec (uninit (maxBlockSize + 4)) hsalt
  have hindex : ¬((copyFrom ((uninit (maxBlockSize + 4)).bytes.take (salt.length + 4)) salt).drop salt.length).length <
      4 := by
    rw [List.length_drop, hlength]
    omega
  obtain ⟨s', hs'⟩ := fillOutput_spec h hfits uninit password numIterations s 0 out htake hlength
  exact ⟨s', by rw [computePBKDF2, if_neg hindex]; exact hs'⟩

theorem computePBKDF2_longSalt (hash : Hash σ) (uninit : (n : Nat) → Buffer n) (s : σ) (out password : Bytes)
    {salt : Bytes} (hsalt : maxBlockSize < salt.length) (numIterations : UInt32) :
    hash.computePBKDF2 uninit s out password salt numIterations = (.error (.unsupported (lit "pbkdf2")), out) := by
  have hroom : ((uninit (maxBlockSize + 4)).bytes.take (salt.length + 4)).length = maxBlockSize + 4 := by
    rw [List.length_take, (uninit (maxBlockSize + 4)).length_bytes]
    omega
  have hindex : ((copyFrom ((uninit (maxBlockSize + 4)).bytes.take (salt.length + 4)) salt).drop salt.length).length <
      4 := by
    rw [copyFrom, hroom, List.length_drop, List.length_append, List.length_take, List.length_drop, hroom]
    omega
  rw [computePBKDF2, if_pos hindex]

/-- **The keyed functions follow their standards.** For every hash of a supported size and in whatever state its object
is, `computeHMAC` prepares the HMAC, and `computePBKDF2` fills the output with the derived key of that length; a salt
that is too long is refused and leaves the output alone. -/
theorem keyedFunctions_follow (h : hash.Computes Content digest) (hfits : hash.Fits) (s : σ) :
    (∀ key data, ∃ s', hash.computeHMAC s key data = .ok s' ∧
      ∀ room, hash.getHashSize ≤ room → hash.getHash s' room = hmac digest hash.getBlockSize key data) ∧
    ∀ uninit out password salt numIterations,
      (salt.length ≤ maxBlockSize →
        ∃ s', hash.computePBKDF2 uninit s out password salt numIterations = (.ok s', derivedKey
          (hmac digest hash.getBlockSize) password salt numIterations.toNat hash.getHashSize out.length)) ∧
      (maxBlockSize < salt.length →
        hash.computePBKDF2 uninit s out password salt numIterations = (.error (.unsupported (lit "pbkdf2")), out)) :=
  ⟨fun key data => computeHMAC_spec h hfits s key data, fun uninit out password _ numIterations =>
    ⟨fun hsalt => computePBKDF2_spec h hfits uninit s out password hsalt numIterations,
      fun hsalt => computePBKDF2_longSalt hash uninit s out password hsalt numIterations⟩⟩

/-- A hash of two bytes, with blocks of four: the sum and the exclusive or of all bytes. -/
def sumAndParity : Hash Bytes where
  clear _ := []
  add s data := s ++ data
  getHashSize := 2
  getBlockSize := 4
  getHash s room := [s.foldl (· + ·) 0, s.foldl (· ^^^ ·) 0].take room

theorem keyedFunctions_follow_sumAndParity :
    ∃ s', sumAndParity.computePBKDF2 (fun n => ⟨List.replicate n 0xAA, List.length_replicate⟩) [] [1, 2, 3, 4, 5]
        (lit "password") (lit "salt") 3 = (.ok s', [68, 208, 38, 168, 36]) := by
  have hcomputes : sumAndParity.Computes Eq fun m => [m.foldl (· + ·) 0, m.foldl (· ^^^ ·) 0] :=
    { clear := fun _ => rfl
      add := fun h data => congrArg (· ++ data) h
      getHash := fun h room hroom => by subst h; exact List.take_of_length_le hroom
      length_digest := fun _ => rfl
      size_pos := by decide }
  obtain ⟨s', hs'⟩ := ((keyedFunctions_follow hcomputes ⟨by decide, by decide, by decide⟩ []).2
    (fun n => ⟨List.replicate n 0xAA, List.length_replicate⟩) [1, 2, 3, 4, 5] (lit "password") (lit "salt") 3).1
    (by decide)
  exact ⟨s', hs'.trans (congrArg (Prod.mk _) (by decide +kernel))⟩

end Hash

/-! ### Blocks in buffers -/

section buffers

open Blocks

variable {S : Type} {n pos : Nat} {f : S → Bytes → S} {s₀ s : S} {m data : Bytes}

theorem absorbed_write (buffer : Buffer n) (hroom : pos + data.length < n)
    (h : Absorbed n f s₀ m s (buffer.bytes.take pos ++ data)) :
    Absorbed n f s₀ m s ((buffer.write pos data).bytes.take (m.length % n)) := by
  have hpos : (buffer.bytes.take pos).length = pos := by
    rw [List.length_take, buffer.length_bytes]
    omega
  have hlength : (buffer.bytes.take pos ++ data).length = pos + data.length := by rw [List.length_append, hpos]
  rw [h.length_mod (by rwa [hlength]), hlength, buffer.take_write hroom.le]
  exact h

theorem absorbed_complete (buffer : Buffer n) (hpos : pos < n)
    (h : Absorbed n f s₀ m s (buffer.bytes.take pos)) (hdata : n - pos ≤ data.length) :
    Absorbed n f s₀ (m ++ data) (f s (buffer.write pos (data.take (n - pos))).bytes) (data.drop (n - pos)) := by
  have htake : (buffer.bytes.take pos).length = pos := by
    rw [List.length_take, buffer.length_bytes]
    omega
  have hfull : pos + (data.take (n - pos)).length = n := by
    rw [List.length_take]
    omega
  rw [buffer.write_all hfull]
  exact h.complete (by rw [htake]; omega) hdata

theorem padding_take {len padLen : Nat} (hpos : 0 < padLen) (hle : padLen ≤ 64) (hmod : (len + padLen + 8) % 64 = 0) :
    ((0x80 : UInt8) :: List.replicate 63 0).take padLen = 0x80 :: List.replicate (zeros 64 8 len) 0 := by
  obtain ⟨z, rfl⟩ := Nat.exists_eq_succ_of_ne_zero hpos.ne'
  have hz : z = zeros 64 8 len := eq_zeros (by omega) (by rwa [Nat.add_assoc len 1 z, Nat.add_comm 1 z])
  rw [List.take_succ_cons, List.take_replicate, Nat.min_eq_left (Nat.le_of_succ_le_succ hle), hz]

end buffers

end Afl.Checksums
