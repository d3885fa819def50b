import Afl.Io.Archive.Tar

/-!
# Reading ar files

`afl/io/archive/arreader.cpp`: like tar files, with a table of long names that has to precede its uses.
-/

namespace Afl.Io.Archive

/-- `IndexEntry` of an ar file. -/
structure ArEntry where
  name : Bytes
  start : UInt64
  length : UInt64
  executable : Bool
  modificationTime : Int64
  deriving DecidableEq

structure ArReader where
  file : File
  nextEntryPosition : UInt64
  atEnd : Bool
  index : List ArEntry
  longNameTable : Bytes
  deriving DecidableEq

namespace ArReader

def maxLongNameTableSize : UInt32 := 32 * 1024 * 1024

def fileMagic : Bytes := lit "!<arch>" ++ [10]

def memberMagic : Bytes := [96, 10]

/-- `sizeof(ArMemberHeader)`. -/
def headerSize : Nat := 60

/-- `parseNumber`: the digits at the begin of a field. -/
def parseNumber (m : Bytes) (base : UInt32) : UInt32 :=
  (m.takeWhile fun c => 48 ≤ c ∧ c.toNat < 48 + base.toNat).foldl
    (fun result c => base * result + (c - 48).toUInt32) 0

/-- `checkSpecialName`: a name padded with blanks. -/
def checkSpecialName (m name : Bytes) : Bool := name <+: m && (m.drop name.length).all (· = 32)

/-- A name in the table of long names, at the decimal offset in a file name. -/
def longName (fileName longNameTable : Bytes) : Option Bytes :=
  let index := ((fileName.drop 1).takeWhile charIsDigit).foldl (fun n c => 10 * n + (c.toNat - 48)) 0
  let table := longNameTable.drop index
  let name := table.takeWhile fun c => c ≠ 10
  if name = [] ∨ name.length = table.length then none
  else some (if name.getLast? = some 47 then name.dropLast else name)

/-- A name in the header: up to a slash that only blanks follow, otherwise up to the first blank. -/
def shortName (fileName : Bytes) : Bytes :=
  let name := (fileName.reverse.dropWhile fun c => c = 32).reverse
  if name.getLast? = some 47 then name.dropLast else fileName.takeWhile fun c => c ≠ 32

/-- `getFileName`; there is none if the offset is out of the range of the table. -/
def getFileName (fileName longNameTable : Bytes) : Option Bytes :=
  if fileName.head? = some 32 ∨ fileName.head? = some 47 then longName fileName longNameTable
  else some (shortName fileName)

/-- The kinds of members. -/
inductive Kind
  | symbols
  | longNames
  | regular
  deriving DecidableEq

def kind (fileName : Bytes) : Kind :=
  if checkSpecialName fileName (lit "/") then .symbols
  else if checkSpecialName fileName (lit "__.SYMDEF") ∨ checkSpecialName fileName (lit "__.SYMDEF/") then .symbols
  else if checkSpecialName fileName (lit "//") ∨ checkSpecialName fileName (lit "ARFILENAMES/") then .longNames
  else .regular

/-- What `readNextEntry` does with a member after it has remembered the positions. -/
def takeMember (r : ArReader) (hdr : Bytes) (thisEntryPos : UInt64) (size : UInt32) :
    Except FileError Bool × ArReader :=
  let fileName := field hdr 0 16
  match kind fileName with
  | .symbols => (.ok true, r)
  | .longNames =>
    if size > maxLongNameTableSize then (.error (.fileFormat r.file.name (lit "Unsupported feature")), r)
    else if r.longNameTable = [] then
      match r.file.fullRead size.toNat with
      | (.ok table, file) => (.ok true, { r with file := file, longNameTable := table })
      | (.error e, file) =>
        -- the table has its size then, and what could be read
        let got := (r.file.read size.toNat).1
        let table := got ++ List.replicate (size.toNat - got.length) 0
        (.error e, { r with file := file, longNameTable := table })
    else (.ok true, r)
  | .regular =>
    match getFileName fileName r.longNameTable with
    | none =>
      (.error (.fileFormat r.file.name (lit "Invalid archive member header (lfn table index out of range)")), r)
    | some name =>
      let mode := parseNumber (field hdr 40 8) 8
      let mtime := parseNumber (field hdr 16 12) 10
      let entry : ArEntry := ⟨name, thisEntryPos, size.toUInt64, mode &&& 0o111 ≠ 0, mtime.toUInt64.toInt64⟩
      (.ok true, if name ≠ [] then { r with index := r.index ++ [entry] } else r)

/-- The next header follows the data, which is padded to an even size. -/
def nextPosition (thisEntryPos : UInt64) (size : UInt32) : UInt64 :=
  thisEntryPos + size.toUInt64 + (size &&& 1).toUInt64

def readNextEntry (r : ArReader) : Except FileError Bool × ArReader :=
  if r.atEnd then (.ok false, r)
  else
    match r.file.skipTo r.nextEntryPosition with
    | (.error e, file) => (.error e, { r with file := file })
    | (.ok (), file) =>
      let (hdr, file) := file.read headerSize
      if hdr.length = headerSize ∧ field hdr 58 2 = memberMagic then
        let size := parseNumber (field hdr 48 10) 10
        let r := { r with file := file, nextEntryPosition := nextPosition file.pos size }
        takeMember r hdr file.pos size
      else (.ok false, { r with file := file, atEnd := true })

/-! ### What one step can do -/

theorem takeMember_rest {r r' : ArReader} {hdr : Bytes} {thisEntryPos : UInt64} {size : UInt32}
    {result : Except FileError Bool} (h : takeMember r hdr thisEntryPos size = (result, r')) :
    r'.nextEntryPosition = r.nextEntryPosition ∧ r'.file = r.file.moved r'.file.pos := by
  simp only [takeMember] at h
  split at h
  · cases h
    exact ⟨rfl, rfl⟩
  · split_ifs at h
    · cases h
      exact ⟨rfl, rfl⟩
    · by_cases hlength : (r.file.bytesAt r.file.pos size.toNat).length = size.toNat
      · have hread : r.file.fullRead size.toNat = _ := File.fullRead_of_length hlength
        rw [hread] at h
        cases h
        exact ⟨rfl, rfl⟩
      · obtain ⟨p, -, hread⟩ := File.fullRead_of_short hlength
        have hread : r.file.fullRead size.toNat = _ := hread
        rw [hread] at h
        cases h
        exact ⟨rfl, rfl⟩
    · cases h
      exact ⟨rfl, rfl⟩
  · split at h
    · cases h
      exact ⟨rfl, rfl⟩
    · cases h
      split_ifs <;> exact ⟨rfl, rfl⟩

theorem readNextEntry_eq {r : ArReader} (hend : r.atEnd = false)
    (hskip : r.file.skipTo r.nextEntryPosition = (.ok (), r.file.moved r.nextEntryPosition)) :
    readNextEntry r =
      let hdr := r.file.bytesAt r.nextEntryPosition headerSize
      let file := r.file.moved (r.nextEntryPosition + UInt64.ofNat hdr.length)
      if hdr.length = headerSize ∧ field hdr 58 2 = memberMagic then
        let size := parseNumber (field hdr 48 10) 10
        takeMember { r with file := file, nextEntryPosition := nextPosition file.pos size } hdr file.pos size
      else (.ok false, { r with file := file, atEnd := true }) := by
  rw [readNextEntry, hend, hskip]
  rfl

theorem readNextEntry_error {r : ArReader} (hend : r.atEnd = false) {e : FileError} {p : UInt64}
    (hskip : r.file.skipTo r.nextEntryPosition = (.error e, r.file.moved p)) :
    readNextEntry r = (.error e, { r with file := r.file.moved p }) := by
  rw [readNextEntry, hend, hskip]
  rfl

theorem readNextEntry_true {r r' : ArReader} (h : readNextEntry r = (.ok true, r')) :
    let hdr := r.file.bytesAt r.nextEntryPosition headerSize
    hdr.length = headerSize ∧ r'.file = r.file.moved r'.file.pos ∧
      r'.nextEntryPosition = nextPosition (r.nextEntryPosition + UInt64.ofNat headerSize)
        (parseNumber (field hdr 48 10) 10) := by
  rcases hend : r.atEnd
  · rcases r.file.skipTo_cases r.nextEntryPosition with hskip | ⟨e, p, hskip⟩
    · rw [readNextEntry_eq hend hskip] at h
      simp only at h
      split_ifs at h with hmember
      · obtain ⟨hnext, hfile⟩ := takeMember_rest h
        simp only [hmember.1] at hnext
        exact ⟨hmember.1, hfile, hnext⟩
      · cases h
    · rw [readNextEntry_error hend hskip] at h
      cases h
  · rw [readNextEntry, hend] at h
    cases h

/-- The constructor, with `readHeader`. -/
def new (file : File) : Except FileError ArReader :=
  match file.fullRead fileMagic.length with
  | (.error e, _) => .error e
  | (.ok tmp, file) =>
    if tmp ≠ fileMagic then .error (.fileFormat file.name (lit "Invalid file header"))
    else .ok ⟨file, file.pos, false, [], []⟩

end ArReader

end Afl.Io.Archive
