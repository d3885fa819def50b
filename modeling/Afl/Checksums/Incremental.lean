import Afl.Checksums.Md5
import Afl.Checksums.Sha1
import Afl.Checksums.Sha2

/-!
# Incremental hashing

The six hashes of `afl/checksums` behind their interface: whatever the calls, the hash is the one of the bytes that
have been added since `clear`.
-/

namespace Afl.Checksums

/-- The classes that implement `Hash`. -/
inductive Algorithm
  | md5
  | sha1
  | sha224
  | sha256
  | sha384
  | sha512
deriving DecidableEq

namespace Algorithm

def Object : Algorithm → Type
  | md5 => MD5
  | sha1 => SHA1
  | sha224 => SHA2Core sha2_32
  | sha256 => SHA2Core sha2_32
  | sha384 => SHA2Core sha2_64
  | sha512 => SHA2Core sha2_64

def hash : (a : Algorithm) → Hash a.Object
  | md5 => MD5.hash
  | sha1 => SHA1.hash
  | sha224 => Checksums.sha224
  | sha256 => Checksums.sha256
  | sha384 => Checksums.sha384
  | sha512 => Checksums.sha512

/-- The hash of a whole message: the compression function folded over the blocks of the padded message. -/
def digest : Algorithm → Bytes → Bytes
  | md5 => MD5.construction.digest
  | sha1 => SHA1.construction.digest
  | sha224 => (SHA2Core.construction sha2_32 init224 28).digest
  | sha256 => (SHA2Core.construction sha2_32 init256 32).digest
  | sha384 => (SHA2Core.construction sha2_64 init384 48).digest
  | sha512 => (SHA2Core.construction sha2_64 init512 64).digest

/-- The object has been given these bytes since `clear`. -/
def Holds : (a : Algorithm) → a.Object → Bytes → Prop
  | md5 => MD5.Holds
  | sha1 => SHA1.Holds
  | sha224 => SHA2Core.Holds init224
  | sha256 => SHA2Core.Holds init256
  | sha384 => SHA2Core.Holds init384
  | sha512 => SHA2Core.Holds init512

theorem computes (a : Algorithm) : a.hash.Computes a.Holds a.digest := by
  cases a with
  | md5 => exact MD5.computes
  | sha1 => exact SHA1.computes
  | sha224 => exact SHA2Core.computes sha2_32 init224 (by decide) (by decide) (by decide)
  | sha256 => exact SHA2Core.computes sha2_32 init256 (by decide) (by decide) (by decide)
  | sha384 => exact SHA2Core.computes sha2_64 init384 (by decide) (by decide) (by decide)
  | sha512 => exact SHA2Core.computes sha2_64 init512 (by decide) (by decide) (by decide)

theorem fits (a : Algorithm) : a.hash.Fits := by
  cases a with
  | md5 => exact ⟨by decide, by decide, by decide⟩
  | sha1 => exact ⟨by decide, by decide, by decide⟩
  | sha224 => exact ⟨by decide, by decide, by decide⟩
  | sha256 => exact ⟨by decide, by decide, by decide⟩
  | sha384 => exact ⟨by decide, by decide, by decide⟩
  | sha512 => exact ⟨by decide, by decide, by decide⟩

theorem computeHMAC_eq (a : Algorithm) (s : a.Object) (key data : Bytes) :
    ∃ s', a.hash.computeHMAC s key data = .ok s' ∧ ∀ room, a.hash.getHashSize ≤ room →
      a.hash.getHash s' room = Hash.hmac a.digest a.hash.getBlockSize key data :=
  Hash.computeHMAC_spec a.computes a.fits s key data

end Algorithm

/-- A call of the interface; `getHash` comes with the size of its buffer. -/
inductive Call
  | clear
  | add (data : Bytes)
  | getHash (room : Nat)
deriving DecidableEq

namespace Call

variable {σ : Type}

/-- The object after a call. `getHash` is `const`, and pads a copy. -/
def perform (hash : Hash σ) (s : σ) : Call → σ
  | clear => hash.clear s
  | add data => hash.add s data
  | getHash _ => s

/-- The bytes since the last `clear`. -/
def collect (m : Bytes) : Call → Bytes
  | clear => []
  | add data => m ++ data
  | getHash _ => m

theorem perform_holds {hash : Hash σ} {Content : σ → Bytes → Prop} {digest : Bytes → Bytes}
    (hhash : hash.Computes Content digest) {s : σ} {m : Bytes} (h : Content s m) (call : Call) :
    Content (call.perform hash s) (call.collect m) := by
  cases call with
  | clear => exact hhash.clear s
  | add data => exact hhash.add h data
  | getHash room => exact h

theorem run_holds {hash : Hash σ} {Content : σ → Bytes → Prop} {digest : Bytes → Bytes}
    (hhash : hash.Computes Content digest) (calls : List Call) {s : σ} {m : Bytes} (h : Content s m) :
    Content (calls.foldl (perform hash) s) (calls.foldl collect m) := by
  induction calls generalizing s m with
  | nil => exact h
  | cons call calls ih => exact ih (perform_holds hhash h call)

end Call

/-- **Incremental hashing equals one-shot hashing.** After any calls on a cleared object, `getHash` yields the digest of
the bytes added since the last `clear`, however they were split and whatever hashes were taken in between. -/
theorem incremental_eq_digest (a : Algorithm) (s : a.Object) (calls : List Call) {room : Nat}
    (hroom : a.hash.getHashSize ≤ room) :
    a.hash.getHash (calls.foldl (Call.perform a.hash) (a.hash.clear s)) room = a.digest (calls.foldl Call.collect []) :=
  a.computes.getHash (Call.run_holds a.computes calls (a.computes.clear s)) hroom

/-- Three pieces and two hashes in between, on an object whose buffer still holds something else. -/
theorem incremental_eq_digest_abc :
    let md5 : MD5 := ⟨5, ⟨1, 2, 3, 4⟩, ⟨List.replicate 64 0xAA, List.length_replicate⟩⟩
    let calls : List Call := [.add (lit "a"), .getHash 3, .add [], .add (lit "bc"), .getHash 16]
    MD5.getHash (calls.foldl (Call.perform MD5.hash) (MD5.clear md5)) 16 =
      [0x90, 0x01, 0x50, 0x98, 0x3c, 0xd2, 0x4f, 0xb0, 0xd6, 0x96, 0x3f, 0x7d, 0x28, 0xe1, 0x7f, 0x72] := by
  intro md5 calls
  have hdigest : Algorithm.md5.digest (lit "abc") =
      [0x90, 0x01, 0x50, 0x98, 0x3c, 0xd2, 0x4f, 0xb0, 0xd6, 0x96, 0x3f, 0x7d, 0x28, 0xe1, 0x7f, 0x72] := by
    decide +kernel
  exact (incremental_eq_digest .md5 md5 calls (show Algorithm.md5.hash.getHashSize ≤ 16 by decide)).trans hdigest

end Afl.Checksums
