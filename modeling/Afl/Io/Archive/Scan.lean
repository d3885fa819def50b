import Afl.Io.Archive.Ar
import Afl.Io.Archive.Zip
import Afl.Lib.Loop

/-!
# Reading a complete index

Whatever the bytes are, each member that is read moves the position of the next header on, by the size of a header at
least; so the scan of a file ends.
-/

namespace Afl.Io.Archive

variable {σ : Type}

open Loop (Round) in
/-- Reading on until there is no next entry: the positions of the headers of the members so far, and the reader. -/
def readIndex (next : σ → Except FileError Bool × σ) (position : σ → UInt64) (r : List UInt64 × σ) :
    Round (List UInt64 × σ) (Except FileError Bool × List UInt64 × σ) :=
  match next r.2 with
  | (.ok true, s) => .again (r.1 ++ [position r.2], s)
  | (.ok false, s) => .leave (.ok false, r.1, s)
  | (.error e, s) => .leave (.error e, r.1, s)

/-- A member that is read has its header within the file, and the next header comes after that. -/
structure Advances (position : σ → UInt64) (content : σ → Bytes) (headerSize : Nat) (s s' : σ) : Prop where
  inside : (position s).toNat + headerSize ≤ (content s).length
  onward : (position s).toNat + headerSize ≤ (position s').toNat
  content : content s' = content s

/-- The headers are in order and do not overlap, and all of them are within the file. -/
structure InOrder (visited : List UInt64) (headerSize size : Nat) : Prop where
  apart : visited.Pairwise fun p q => p.toNat + headerSize ≤ q.toNat
  inside : ∀ p ∈ visited, p.toNat + headerSize ≤ size

/-- What holds while the index of a file is read: the headers so far are in order, and before the next one. -/
structure Scanned (position : σ → UInt64) (content : σ → Bytes) (headerSize : Nat) (file : Bytes)
    (r : List UInt64 × σ) : Prop where
  content : content r.2 = file
  inOrder : InOrder r.1 headerSize file.length
  before : ∀ p ∈ r.1, p.toNat + headerSize ≤ (position r.2).toNat

section

variable {next : σ → Except FileError Bool × σ} {position : σ → UInt64} {content : σ → Bytes}
  {headerSize : Nat}

theorem InOrder.nil (headerSize size : Nat) : InOrder [] headerSize size := ⟨.nil, List.forall_mem_nil _⟩

theorem Scanned.advance {file : Bytes} {r r' : List UInt64 × σ} (h : Scanned position content headerSize file r)
    (hvisited : r'.1 = r.1 ++ [position r.2]) (hadvances : Advances position content headerSize r.2 r'.2) :
    Scanned position content headerSize file r' := by
  obtain ⟨rfl, horder, hbefore⟩ := h
  have honward := hadvances.onward
  refine ⟨hadvances.content, ⟨?_, ?_⟩, ?_⟩
  · rw [hvisited, List.pairwise_append]
    refine ⟨horder.apart, List.pairwise_singleton _ _, fun p hp q hq => ?_⟩
    rw [List.mem_singleton] at hq
    exact hq ▸ hbefore p hp
  · rw [hvisited, List.forall_mem_append]
    exact ⟨horder.inside, List.forall_mem_singleton.mpr hadvances.inside⟩
  · rw [hvisited, List.forall_mem_append]
    refine ⟨fun p hp => ?_, List.forall_mem_singleton.mpr honward⟩
    have hp := hbefore p hp
    omega

theorem readIndex_cases (next : σ → Except FileError Bool × σ) (position : σ → UInt64) (r : List UInt64 × σ) :
    (∃ s', next r.2 = (.ok true, s') ∧ readIndex next position r = .again (r.1 ++ [position r.2], s')) ∨
      ∃ result s', result ≠ .ok true ∧ next r.2 = (result, s') ∧
        readIndex next position r = .leave (result, r.1, s') := by
  rw [readIndex]
  rcases next r.2 with ⟨e | _ | _, s'⟩
  · exact .inr ⟨_, s', (by intro h; cases h), rfl, rfl⟩
  · exact .inr ⟨_, s', by decide, rfl, rfl⟩
  · exact .inl ⟨s', rfl, rfl⟩

/-- **Rule for scans.** A reader that advances comes to the end of its index. -/
theorem readIndex_ends (hsize : 0 < headerSize)
    (hnext : ∀ {s s'}, next s = (.ok true, s') → Advances position content headerSize s s') (s : σ) :
    ∃ result visited s', Loop.Ends (readIndex next position) ([], s) (result, visited, s') ∧ result ≠ .ok true ∧
      InOrder visited headerSize (content s).length := by
  have hagain : ∀ {r r' : List UInt64 × σ}, readIndex next position r = .again r' →
      r'.1 = r.1 ++ [position r.2] ∧ Advances position content headerSize r.2 r'.2 := by
    intro r r' h
    obtain ⟨s', hstep, hround⟩ | ⟨_, s', -, -, hround⟩ := readIndex_cases next position r
    · cases hround.symm.trans h
      exact ⟨rfl, hnext hstep⟩
    · cases hround.symm.trans h
  -- the part of the file that is not scanned yet shrinks
  have hless : ∀ {r r' : List UInt64 × σ}, True → readIndex next position r = .again r' →
      True ∧ (content r'.2).length - (position r'.2).toNat < (content r.2).length - (position r.2).toNat := by
    intro r r' _ h
    obtain ⟨-, hinside, honward, hsame⟩ := hagain h
    rw [hsame]
    exact ⟨trivial, by omega⟩
  obtain ⟨⟨result, visited, s'⟩, hends⟩ : ∃ out, Loop.Ends (readIndex next position) ([], s) out :=
    Loop.Ends.of_measure _ hless trivial
  have hstart : Scanned position content headerSize (content s) ([], s) := ⟨rfl, .nil _ _, List.forall_mem_nil _⟩
  refine ⟨result, visited, s', hends, Loop.Ends.of_invariant
    (Q := fun out => out.1 ≠ .ok true ∧ InOrder out.2.1 headerSize (content s).length) ?_ ?_ hstart hends⟩
  · intro r r' hr h
    exact hr.advance (hagain h).1 (hagain h).2
  · intro r out hr h
    obtain ⟨s', -, hround⟩ | ⟨result, s', hresult, -, hround⟩ := readIndex_cases next position r
    · cases hround.symm.trans h
    · cases hround.symm.trans h
      exact ⟨hresult, hr.inOrder⟩

end

/-! ### The three readers -/

open File

theorem TarReader.length_padding (size : UInt64) :
    ((size + 511) &&& (~~~(511 : UInt32)).toUInt64).toNat < 0x100000000 := by
  have hmask : (~~~(511 : UInt32)).toUInt64.toNat < 0x100000000 := by decide
  rw [UInt64.toNat_and]
  exact Nat.lt_of_le_of_lt Nat.and_le_right hmask

theorem TarReader.nextPosition_le {f : File} {pos : UInt64} (h : (f.bytesAt pos headerSize).length = headerSize)
    (size : UInt64) :
    pos.toNat + headerSize ≤ f.content.length ∧
      (pos + UInt64.ofNat headerSize).toNat = pos.toNat + headerSize ∧
      pos.toNat + headerSize ≤ (nextPosition (pos + UInt64.ofNat headerSize) size).toNat := by
  have hinside := inside_of_length (by decide) h
  have hpadding := length_padding size
  have hheader : (UInt64.ofNat headerSize).toNat = headerSize := by decide
  have hstart : (pos + UInt64.ofNat headerSize).toNat = pos.toNat + headerSize := by
    rw [toNat_add (f := f) (by omega) (by decide), hheader]
  refine ⟨hinside, hstart, ?_⟩
  rw [nextPosition]
  generalize ((size + 511) &&& (~~~(511 : UInt32)).toUInt64) = padding at hpadding
  rw [toNat_add (f := f) (by omega) (by omega), hstart]
  exact Nat.le_add_right _ _

theorem TarReader.advances {r r' : TarReader} (h : readNextEntry r = (.ok true, r')) :
    Advances TarReader.nextEntryPosition (fun r => r.file.content) headerSize r r' := by
  obtain ⟨-, hlength, -, entry, -, rfl⟩ := readNextEntry_true h
  obtain ⟨hinside, -, honward⟩ := nextPosition_le hlength entry.length
  exact ⟨hinside, honward, by simp only [moved]⟩

theorem ArReader.advances {r r' : ArReader} (h : readNextEntry r = (.ok true, r')) :
    Advances ArReader.nextEntryPosition (fun r => r.file.content) headerSize r r' := by
  obtain ⟨hlength, hfile, hnext⟩ := readNextEntry_true h
  have hinside := inside_of_length (by decide) hlength
  have hheader : (UInt64.ofNat headerSize).toNat = headerSize := by decide
  refine ⟨hinside, ?_, by rw [hfile, moved]⟩
  rw [hnext, nextPosition]
  generalize parseNumber _ _ = size
  have hsize := size.toNat_lt
  have hodd : (size &&& 1).toUInt64.toNat ≤ 1 := by
    rw [UInt32.toNat_toUInt64, UInt32.toNat_and]
    exact Nat.and_le_right
  have hstart : (r.nextEntryPosition + UInt64.ofNat headerSize).toNat = r.nextEntryPosition.toNat + headerSize := by
    rw [toNat_add (f := r.file) (by omega) (by decide), hheader]
  have hpadded : (size.toUInt64 + (size &&& 1).toUInt64).toNat = size.toNat + (size &&& 1).toUInt64.toNat := by
    rw [UInt64.toNat_add, UInt32.toNat_toUInt64]
    omega
  rw [UInt64.add_assoc, toNat_add (f := r.file) (by omega) (by omega), hstart]
  omega

theorem ZipReader.nextPosition_le {f : File} {keepPaths : Bool} {pos : UInt64} {flags : UInt16} {entry : ZipEntry}
    (h : blockAt f keepPaths pos = .member flags entry) :
    pos.toNat + (4 + headerSize) ≤ f.content.length ∧
      pos.toNat + (4 + headerSize) ≤ (entry.start + entry.compressedSize).toNat := by
  obtain ⟨hinside, hstart, hbound, hsize⟩ := blockAt_member h
  have hsmall := f.small
  refine ⟨hinside, ?_⟩
  rw [UInt64.toNat_add]
  omega

theorem ZipReader.advances {r r' : ZipReader} (h : readNextEntry r = (.ok true, r')) :
    Advances (fun r => r.file.pos) (fun r => r.file.content) (4 + headerSize) r r' := by
  obtain ⟨flags, entry, hblock, rfl⟩ := readNextEntry_true h
  obtain ⟨hinside, honward⟩ := nextPosition_le hblock
  exact ⟨hinside, honward, by simp only [moved]⟩

/-- **The scan of an archive ends.** Whatever the bytes of the file are, and in whatever state a reader is, reading on to
the end of the index is a loop that is left, with the end of the index or an exception. The headers of the members that
are read are in order, do not overlap and are within the file. -/
theorem index_scan_ends (tar : TarReader) (ar : ArReader) (zip : ZipReader) :
    (∃ result visited r', Loop.Ends (readIndex TarReader.readNextEntry TarReader.nextEntryPosition) ([], tar)
        (result, visited, r') ∧ result ≠ .ok true ∧ InOrder visited TarReader.headerSize tar.file.content.length) ∧
      (∃ result visited r', Loop.Ends (readIndex ArReader.readNextEntry ArReader.nextEntryPosition) ([], ar)
        (result, visited, r') ∧ result ≠ .ok true ∧ InOrder visited ArReader.headerSize ar.file.content.length) ∧
      (∃ result visited r', Loop.Ends (readIndex ZipReader.readNextEntry fun r => r.file.pos) ([], zip)
        (result, visited, r') ∧ result ≠ .ok true ∧
          InOrder visited (4 + ZipReader.headerSize) zip.file.content.length) :=
  ⟨readIndex_ends (by decide) TarReader.advances tar, readIndex_ends (by decide) ArReader.advances ar,
    readIndex_ends (by decide) ZipReader.advances zip⟩

end Afl.Io.Archive
