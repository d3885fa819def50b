import Afl.Charset.CodepageCharset
import Afl.Io.Archive.Tar

/-!
# Reading zip files

`afl/io/archive/zipreader.cpp`: the index of a zip file is read local header by local header, through a child of the
file that nobody else uses.
-/

namespace Afl.Io.Archive

open Charset

/-- `IndexEntry` of a zip file. -/
structure ZipEntry where
  name : Bytes
  method : UInt16
  start : UInt64
  compressedSize : UInt64
  uncompressedSize : UInt64
  deriving DecidableEq

/-- The position of the file is that of `m_view`. -/
structure ZipReader where
  file : File
  keepPaths : Bool
  index : List ZipEntry
  indexerReachedEnd : Bool
  hadUnsupportedFeature : Bool
  deriving DecidableEq

namespace ZipReader

def number (m : Bytes) : Nat := m.foldr (fun c n => c.toNat + 256 * n) 0

/-- `LocalHeader`, as far as it is used. -/
structure LocalHeader where
  flags : UInt16
  method : UInt16
  compressedSize : UInt32
  uncompressedSize : UInt32
  nameLength : UInt16
  extraLength : UInt16

/-- `sizeof(LocalHeader)`. -/
def headerSize : Nat := 26

def localHeader (m : Bytes) : LocalHeader where
  flags := UInt16.ofNat (number (field m 2 2))
  method := UInt16.ofNat (number (field m 4 2))
  compressedSize := UInt32.ofNat (number (field m 14 4))
  uncompressedSize := UInt32.ofNat (number (field m 18 4))
  nameLength := UInt16.ofNat (number (field m 22 2))
  extraLength := UInt16.ofNat (number (field m 24 2))

def gfEncrypted : UInt16 := 1

def gfMethodExtra1 : UInt16 := 2

def gfMethodExtra2 : UInt16 := 4

def gfUnicodeName : UInt16 := 2048

def gfUpdated : UInt16 := 32768

def gfKnown : UInt16 := gfEncrypted + gfMethodExtra1 + gfMethodExtra2 + gfUnicodeName + gfUpdated

def cmStored : UInt16 := 0

def cmDeflated : UInt16 := 8

/-- The name of a member: empty for a directory. -/
def memberName (keepPaths : Bool) (flags : UInt16) (name : Bytes) : Bytes :=
  let name := if 47 ∈ name ∧ (¬keepPaths ∨ name.getLast? = some 47) then lastComponent name else name
  if flags &&& gfUnicodeName = 0 then codepage437.decode name else name

/-- Add a member to the index, if it can be read and none with its name is there. -/
def addEntry (index : List ZipEntry) (flags : UInt16) (entry : ZipEntry) : List ZipEntry :=
  if entry.name = [] then index
  else if flags &&& gfEncrypted = 0 ∧ (entry.method = cmStored ∨ entry.method = cmDeflated) then
    if ∀ e ∈ index, e.name ≠ entry.name then index ++ [entry] else index
  else index

def skipExtra (file : File) (extraLength : UInt16) : Except FileError Unit × File :=
  if extraLength ≠ 0 then file.setPos (file.pos + extraLength.toUInt64) else (.ok (), file)

/-- The part of `readNextEntry` that reads a local header, after the block type. -/
def takeLocalHeader (r : ZipReader) : Except FileError Bool × ZipReader :=
  match r.file.fullRead headerSize with
  | (.error e, file) => (.error e, { r with file := file })
  | (.ok m, file) =>
    let header := localHeader m
    if header.flags &&& ~~~gfKnown ≠ 0 then (.ok false, { r with file := file, hadUnsupportedFeature := true })
    else
      match file.fullRead header.nameLength.toNat with
      | (.error e, file) => (.error e, { r with file := file })
      | (.ok name, file) =>
        match skipExtra file header.extraLength with
        | (.error e, file) => (.error e, { r with file := file })
        | (.ok (), file) =>
          let entry : ZipEntry := ⟨memberName r.keepPaths header.flags name, header.method, file.pos,
            header.compressedSize.toUInt64, header.uncompressedSize.toUInt64⟩
          let r := { r with index := addEntry r.index header.flags entry }
          match file.setPos (file.pos + header.compressedSize.toUInt64) with
          | (.error e, file) => (.error e, { r with file := file })
          | (.ok (), file) => (.ok true, { r with file := file })

def readNextEntry (r : ZipReader) : Except FileError Bool × ZipReader :=
  if r.indexerReachedEnd ∨ r.hadUnsupportedFeature then (.ok false, { r with indexerReachedEnd := true })
  else
    let (blockType, file) := r.file.read 4
    let r := { r with file := file }
    if blockType.length ≠ 4 then (.ok false, { r with indexerReachedEnd := true })
    else if number blockType = 0x04034B50 then takeLocalHeader r
    else if number blockType = 0x02014B50 ∨ number blockType = 0x06054B50 then
      (.ok false, { r with indexerReachedEnd := true })
    else (.ok false, { r with hadUnsupportedFeature := true })

/-! ### What one step can do -/

/-- What is at a position of a zip file. -/
inductive Block
  | last
  | unsupported
  | short
  | member (flags : UInt16) (entry : ZipEntry)

def localBlock (f : File) (keepPaths : Bool) (pos : UInt64) : Block :=
  let header := localHeader (f.bytesAt pos headerSize)
  let namePos := pos + UInt64.ofNat headerSize
  let name := f.bytesAt namePos header.nameLength.toNat
  if (f.bytesAt pos headerSize).length ≠ headerSize then .short
  else if header.flags &&& ~~~gfKnown ≠ 0 then .unsupported
  else if name.length ≠ header.nameLength.toNat then .short
  else
    .member header.flags ⟨memberName keepPaths header.flags name, header.method,
      namePos + UInt64.ofNat header.nameLength.toNat + header.extraLength.toUInt64,
      header.compressedSize.toUInt64, header.uncompressedSize.toUInt64⟩

def blockAt (f : File) (keepPaths : Bool) (pos : UInt64) : Block :=
  let blockType := f.bytesAt pos 4
  if blockType.length ≠ 4 then .last
  else if number blockType = 0x04034B50 then localBlock f keepPaths (pos + 4)
  else if number blockType = 0x02014B50 ∨ number blockType = 0x06054B50 then .last
  else .unsupported

theorem skipExtra_moved (f : File) (p : UInt64) (extraLength : UInt16) :
    skipExtra (f.moved p) extraLength = (.ok (), f.moved (p + extraLength.toUInt64)) ∨
      f.canSeek = false ∧ ∃ e, skipExtra (f.moved p) extraLength = (.error e, f.moved p) := by
  rw [skipExtra]
  split_ifs with hextra
  · rcases f.setPos_moved p (p + extraLength.toUInt64) with hset | ⟨hseek, hset⟩
    · exact .inl hset
    · exact .inr ⟨hseek, _, hset⟩
  · rw [not_not.mp hextra, show (0 : UInt16).toUInt64 = 0 from rfl, UInt64.add_zero]
    exact .inl rfl

/-- What reading an entry comes to, given what is at its position. -/
def Outcome (r : ZipReader) (result : Except FileError Bool × ZipReader) : Block → Prop
  | .last => ∃ p, result = (.ok false, { r with file := r.file.moved p, indexerReachedEnd := true })
  | .unsupported => ∃ p, result = (.ok false, { r with file := r.file.moved p, hadUnsupportedFeature := true })
  | .short => ∃ p, r.file.content.length ≤ p.toNat ∧
      result = (.error (.fileTooShort r.file.name), { r with file := r.file.moved p })
  | .member flags entry =>
    result = (.ok true, { r with
      file := r.file.moved (entry.start + entry.compressedSize), index := addEntry r.index flags entry }) ∨
      r.file.canSeek = false ∧ ∃ e p index, result = (.error e, { r with file := r.file.moved p, index := index })

theorem outcome_takeLocalHeader (r : ZipReader) (p : UInt64) :
    Outcome r (takeLocalHeader { r with file := r.file.moved p }) (localBlock r.file r.keepPaths p) := by
  rw [takeLocalHeader, localBlock]
  by_cases hheader : (r.file.bytesAt p headerSize).length = headerSize
  · rw [File.fullRead_of_length hheader, if_neg (not_not.mpr hheader)]
    simp only
    generalize localHeader _ = header
    split_ifs with hflags hname
    · exact ⟨_, rfl⟩
    · obtain ⟨q, hq, hread⟩ := File.fullRead_of_short hname
      rw [hread]
      exact ⟨q, hq, rfl⟩
    · rw [File.fullRead_of_length (not_not.mp hname)]
      simp only
      generalize p + UInt64.ofNat headerSize + UInt64.ofNat header.nameLength.toNat = namePos
      obtain hskip | ⟨hseek, e, hskip⟩ := skipExtra_moved r.file namePos header.extraLength
      · rw [hskip]
        simp only [File.pos_moved]
        obtain hset | ⟨hseek, hset⟩ := r.file.setPos_moved (namePos + header.extraLength.toUInt64)
          (namePos + header.extraLength.toUInt64 + header.compressedSize.toUInt64)
        · rw [hset]
          exact .inl rfl
        · rw [hset]
          exact .inr ⟨hseek, _, _, _, rfl⟩
      · rw [hskip]
        exact .inr ⟨hseek, _, _, _, rfl⟩
  · obtain ⟨q, hq, hread⟩ := File.fullRead_of_short hheader
    rw [hread, if_pos hheader]
    exact ⟨q, hq, rfl⟩

theorem outcome_readNextEntry {r : ZipReader} (hend : r.indexerReachedEnd = false)
    (hsupported : r.hadUnsupportedFeature = false) :
    Outcome r (readNextEntry r) (blockAt r.file r.keepPaths r.file.pos) := by
  have hopen : ¬(r.indexerReachedEnd = true ∨ r.hadUnsupportedFeature = true) := by
    simp only [hend, hsupported, Bool.false_eq_true, or_self, not_false_eq_true]
  have hread : r.file.read 4 = (r.file.bytesAt r.file.pos 4, r.file.moved (r.file.pos +
      UInt64.ofNat (r.file.bytesAt r.file.pos 4).length)) := rfl
  rw [readNextEntry, if_neg hopen, blockAt, hread]
  simp only
  split_ifs with hshort hlocal hlast
  · exact ⟨_, rfl⟩
  · rw [not_not.mp hshort]
    exact outcome_takeLocalHeader r _
  · exact ⟨_, rfl⟩
  · exact ⟨_, rfl⟩

theorem readNextEntry_true {r r' : ZipReader} (h : readNextEntry r = (.ok true, r')) :
    ∃ flags entry, blockAt r.file r.keepPaths r.file.pos = .member flags entry ∧
      r' = { r with
        file := r.file.moved (entry.start + entry.compressedSize), index := addEntry r.index flags entry } := by
  have hend : r.indexerReachedEnd = false ∧ r.hadUnsupportedFeature = false := by
    by_contra hnot
    have hclosed : r.indexerReachedEnd = true ∨ r.hadUnsupportedFeature = true := by
      rcases hr : r.indexerReachedEnd <;> rcases hu : r.hadUnsupportedFeature <;> simp_all
    rw [readNextEntry, if_pos hclosed] at h
    cases h
  have houtcome := outcome_readNextEntry hend.1 hend.2
  rw [h] at houtcome
  rcases hblock : blockAt r.file r.keepPaths r.file.pos with _ | _ | _ | ⟨flags, entry⟩ <;> rw [hblock] at houtcome
  · obtain ⟨p, heq⟩ := houtcome
    cases heq
  · obtain ⟨p, heq⟩ := houtcome
    cases heq
  · obtain ⟨p, -, heq⟩ := houtcome
    cases heq
  · obtain heq | ⟨-, e, p, index, heq⟩ := houtcome
    · exact ⟨flags, entry, rfl, (Prod.mk.inj heq).2⟩
    · cases heq

theorem blockAt_member {f : File} {keepPaths : Bool} {pos : UInt64} {flags : UInt16} {entry : ZipEntry}
    (h : blockAt f keepPaths pos = .member flags entry) :
    pos.toNat + (4 + headerSize) ≤ f.content.length ∧ pos.toNat + (4 + headerSize) ≤ entry.start.toNat ∧
      entry.start.toNat < f.content.length + 0x10000 ∧ entry.compressedSize.toNat < 0x100000000 := by
  have hsmall := f.small
  rw [blockAt] at h
  split_ifs at h with htype
  rw [localBlock] at h
  generalize localHeader _ = header at h
  split_ifs at h with hheader hflags hname
  cases h
  have htypeInside := File.inside_of_length (by decide) (not_not.mp htype)
  have htypeEnd : (pos + 4).toNat = pos.toNat + 4 := File.toNat_add (f := f) (by omega) (by decide)
  have hheaderInside := File.inside_of_length (by decide) (not_not.mp hheader)
  have hheaderSize : (UInt64.ofNat headerSize).toNat = headerSize := by decide
  have hheaderEnd : (pos + 4 + UInt64.ofNat headerSize).toNat = pos.toNat + (4 + headerSize) := by
    rw [File.toNat_add (f := f) (by omega) (by decide), htypeEnd, hheaderSize]
    omega
  have hnameLength := not_not.mp hname
  rw [f.length_bytesAt] at hnameLength
  have hnameLt := header.nameLength.toNat_lt
  have hextraLt := header.extraLength.toNat_lt
  have hcompressedLt := header.compressedSize.toNat_lt
  have hstart : (pos + 4 + UInt64.ofNat headerSize + UInt64.ofNat header.nameLength.toNat +
      header.extraLength.toUInt64).toNat =
        pos.toNat + (4 + headerSize) + header.nameLength.toNat + header.extraLength.toNat := by
    rw [UInt64.toNat_add, UInt64.toNat_add, hheaderEnd, UInt64.toNat_ofNat', UInt16.toNat_toUInt64]
    omega
  rw [hstart, UInt32.toNat_toUInt64]
  omega

/-- The constructor reads the first entry. The child of the file starts at its begin. -/
def new (file : File) (keepPaths : Bool) : Except FileError ZipReader :=
  match readNextEntry ⟨{ file with pos := 0 }, keepPaths, [], false, false⟩ with
  | (.error e, _) => .error e
  | (.ok _, r) => .ok r

end ZipReader

end Afl.Io.Archive
