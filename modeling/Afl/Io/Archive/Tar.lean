import Afl.Io.Archive.File
import Afl.String.Parse

/-!
# Reading tar files

`afl/io/archive/tarreader.cpp`: the index of a tar file is read header by header, from the file itself.
-/

namespace Afl.Io.Archive

def field (hdr : Bytes) (first size : Nat) : Bytes := (hdr.drop first).take size

def lastComponent (name : Bytes) : Bytes := (name.reverse.takeWhile fun c => c ≠ 47).reverse

/-- `IndexEntry` of a tar file. -/
structure TarEntry where
  name : Bytes
  start : UInt64
  length : UInt64
  executable : Bool
  modificationTime : Int64
  deriving DecidableEq

structure TarReader where
  file : File
  keepPaths : Bool
  nextEntryPosition : UInt64
  atEnd : Bool
  index : List TarEntry
  deriving DecidableEq

namespace TarReader

/-- `sizeof(UstarHeader)`. -/
def headerSize : Nat := 512

/-- `getString`: a field that ends at the first zero byte, if there is one. -/
def getString (m : Bytes) : Bytes := m.takeWhile fun c => c ≠ 0

def isOctalDigit (c : UInt8) : Bool := 48 ≤ c && c ≤ 55

/-- `getNumber`: an octal number between white space, up to the end or a zero byte. -/
def getNumber (m : Bytes) : Option UInt64 :=
  let m := m.dropWhile charIsSpace
  let digits := m.takeWhile isOctalDigit
  let rest := (m.dropWhile isOctalDigit).dropWhile charIsSpace
  if rest = [] ∨ rest.head? = some 0 then
    some (digits.foldl (fun result c => 8 * result + (c - 48).toUInt64) 0)
  else none

def normalizeName (keepPaths : Bool) (name : Bytes) : Bytes :=
  if ¬keepPaths then lastComponent name
  else if [46, 47] <+: name then name.drop 2
  else if [47] <+: name then name.drop 1
  else name

/-- The name of a member: the fields `prefix` and `name`. -/
def memberName (keepPaths : Bool) (hdr : Bytes) : Bytes :=
  let name := getString (field hdr 0 100)
  let directory := getString (field hdr 345 155)
  normalizeName keepPaths (if directory ≠ [] then directory ++ [47] ++ name else name)

/-- `typeflag` of a regular file (`0`, or a zero byte) or a high-performance file. -/
def isFile (typeflag : UInt8) : Bool := typeflag = 48 || typeflag = 0 || typeflag = 55

/-- The next header follows the data, which is padded to blocks; the mask is an `unsigned int`. -/
def nextPosition (thisEntryPosition size : UInt64) : UInt64 :=
  thisEntryPosition + ((size + 511) &&& (~~~(511 : UInt32)).toUInt64)

/-- The entry of a header that is followed by data at a position, or null if a number in it is invalid. -/
def parseHeader (keepPaths : Bool) (hdr : Bytes) (start : UInt64) : Option TarEntry := do
  let size ← getNumber (field hdr 124 12)
  let mode ← getNumber (field hdr 100 8)
  let modificationTime ← getNumber (field hdr 136 12)
  pure ⟨memberName keepPaths hdr, start, size, mode &&& 0o111 ≠ 0, modificationTime.toInt64⟩

/-- Add a member to the index, if it is a file and none with its name is there. -/
def addEntry (index : List TarEntry) (typeflag : UInt8) (entry : TarEntry) : List TarEntry :=
  if isFile typeflag ∧ ∀ e ∈ index, e.name ≠ entry.name then index ++ [entry] else index

/-- What `readNextEntry` makes of the header it has read. -/
def takeHeader (r : TarReader) (hdr : Bytes) : Except FileError Bool × TarReader :=
  if hdr.length = headerSize then
    if getString (field hdr 0 100) = [] then (.ok false, { r with atEnd := true })
    else
      let thisEntryPosition := r.nextEntryPosition + UInt64.ofNat headerSize
      match parseHeader r.keepPaths hdr thisEntryPosition with
      | none => (.error (.fileFormat r.file.name (lit "Invalid number")), r)
      | some entry =>
        (.ok true, { r with
          nextEntryPosition := nextPosition thisEntryPosition entry.length
          index := addEntry r.index ((field hdr 156 1).headD 0) entry })
  else (.ok false, { r with atEnd := true })

def readNextEntry (r : TarReader) : Except FileError Bool × TarReader :=
  if r.atEnd then (.ok false, r)
  else
    match r.file.skipTo r.nextEntryPosition with
    | (.error e, file) => (.error e, { r with file := file })
    | (.ok (), file) =>
      let (hdr, file) := file.read headerSize
      takeHeader { r with file := file } hdr

/-! ### What one step can do -/

theorem readNextEntry_eq {r : TarReader} (hend : r.atEnd = false)
    (hskip : r.file.skipTo r.nextEntryPosition = (.ok (), r.file.moved r.nextEntryPosition)) :
    readNextEntry r =
      takeHeader { r with file := r.file.moved (r.nextEntryPosition +
        UInt64.ofNat (r.file.bytesAt r.nextEntryPosition headerSize).length) }
        (r.file.bytesAt r.nextEntryPosition headerSize) := by
  rw [readNextEntry, hend, hskip]
  rfl

theorem readNextEntry_error {r : TarReader} (hend : r.atEnd = false) {e : FileError} {p : UInt64}
    (hskip : r.file.skipTo r.nextEntryPosition = (.error e, r.file.moved p)) :
    readNextEntry r = (.error e, { r with file := r.file.moved p }) := by
  rw [readNextEntry, hend, hskip]
  rfl

theorem takeHeader_true {r r' : TarReader} {hdr : Bytes} (h : takeHeader r hdr = (.ok true, r')) :
    hdr.length = headerSize ∧ getString (field hdr 0 100) ≠ [] ∧
      ∃ entry, parseHeader r.keepPaths hdr (r.nextEntryPosition + UInt64.ofNat headerSize) = some entry ∧
        r' = { r with
          nextEntryPosition := nextPosition (r.nextEntryPosition + UInt64.ofNat headerSize) entry.length
          index := addEntry r.index ((field hdr 156 1).headD 0) entry } := by
  rw [takeHeader] at h
  split_ifs at h with hlength hname
  · cases h
  · refine ⟨hlength, hname, ?_⟩
    rcases hentry : parseHeader r.keepPaths hdr (r.nextEntryPosition + UInt64.ofNat headerSize) with _ | entry
    · simp only [hentry] at h
      cases h
    · simp only [hentry] at h
      cases h
      exact ⟨entry, rfl, rfl⟩
  · cases h

theorem readNextEntry_true {r r' : TarReader} (h : readNextEntry r = (.ok true, r')) :
    let hdr := r.file.bytesAt r.nextEntryPosition headerSize
    r.atEnd = false ∧ hdr.length = headerSize ∧ getString (field hdr 0 100) ≠ [] ∧
      ∃ entry, parseHeader r.keepPaths hdr (r.nextEntryPosition + UInt64.ofNat headerSize) = some entry ∧
        r' = { r with
          file := r.file.moved (r.nextEntryPosition + UInt64.ofNat headerSize)
          nextEntryPosition := nextPosition (r.nextEntryPosition + UInt64.ofNat headerSize) entry.length
          index := addEntry r.index ((field hdr 156 1).headD 0) entry } := by
  rcases hend : r.atEnd
  · rcases r.file.skipTo_cases r.nextEntryPosition with hskip | ⟨e, p, hskip⟩
    · rw [readNextEntry_eq hend hskip] at h
      obtain ⟨hlength, hname, entry, hentry, rfl⟩ := takeHeader_true h
      exact ⟨rfl, hlength, hname, entry, hentry, by rw [hlength, hend]⟩
    · rw [readNextEntry_error hend hskip] at h
      cases h
  · rw [readNextEntry, hend] at h
    cases h

def new (file : File) (keepPaths : Bool) : TarReader := ⟨file, keepPaths, file.pos, false, []⟩

end TarReader

end Afl.Io.Archive
