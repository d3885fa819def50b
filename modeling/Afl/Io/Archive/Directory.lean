import Afl.Io.Archive.Scan
import Afl.Lib.Lazy

/-!
# Archives as directories

`getDirectoryEntryByName` and the enumerators read the index as far as they need it. A lookup that finds nothing makes
`getDirectoryEntryByName` throw that the file was not found. The members of a file are given by its content here, from
one header position to the next.
-/

namespace Afl.Io.Archive

open Lazy

/-! ### Tar files -/

variable {pos : UInt64} {keepPaths : Bool}

namespace TarReader

/-- `getDirectoryEntryByName` and `TarDirEnum::getNextElement`, as requests to the index. -/
def source : Source TarReader TarEntry FileError where
  next := readNextEntry
  items := TarReader.index
  left r := r.file.content.length - r.nextEntryPosition.toNat
  less := by
    intro r r' h
    obtain ⟨hinside, honward, hcontent⟩ := advances h
    have hheader : 0 < headerSize := by decide
    simp only [hcontent]
    omega

/-- A member is listed if it is a file. -/
def listed (typeflag : UInt8) (entry : TarEntry) : List TarEntry := if isFile typeflag then [entry] else []

/-- The members of a tar file that are files, from the header at a position on, and the exception at which reading stops
if it does not come to the end. -/
def members (f : File) (keepPaths : Bool) (pos : UInt64) : List TarEntry × Option FileError :=
  let hdr := f.bytesAt pos headerSize
  if f.canSeek = false ∧ f.content.length < pos.toNat then ([], some (.fileTooShort f.name))
  else if _h : hdr.length = headerSize ∧ getString (field hdr 0 100) ≠ [] then
    match parseHeader keepPaths hdr (pos + UInt64.ofNat headerSize) with
    | none => ([], some (.fileFormat f.name (lit "Invalid number")))
    | some entry =>
      let rest := members f keepPaths (nextPosition (pos + UInt64.ofNat headerSize) entry.length)
      (listed ((field hdr 156 1).headD 0) entry ++ rest.1, rest.2)
  else ([], none)
termination_by f.content.length - pos.toNat
decreasing_by
  obtain ⟨hinside, -, honward⟩ := nextPosition_le _h.1 entry.length
  have hheader : 0 < headerSize := by decide
  omega

/-- What is not in the index yet. After an invalid number, a file that cannot seek has been read too far. -/
def remaining (f : File) (r : TarReader) : List TarEntry × Option FileError :=
  if r.atEnd then ([], none)
  else if f.canSeek = false ∧ r.nextEntryPosition < r.file.pos then
    ([], some (.fileProblem f.name (lit "Invalid operation")))
  else members f r.keepPaths r.nextEntryPosition

/-- What comes after an exception: the same one again, except that a file that cannot seek cannot go back to an invalid
number. -/
def after (f : File) (e : FileError) : Option FileError :=
  if f.canSeek ∨ e = .fileTooShort f.name then some e else some (.fileProblem f.name (lit "Invalid operation"))

/-- The reader of a file, at a position that it can be at. -/
structure Reads (f : File) (r : TarReader) : Prop where
  file : r.file = f.moved r.file.pos
  inside : f.canSeek = false → r.file.pos.toNat ≤ f.content.length

variable {f : File} {r r' : TarReader}

theorem addEntry_eq (index : List TarEntry) (typeflag : UInt8) (entry : TarEntry) :
    addEntry index typeflag entry = (listed typeflag entry).foldl (addNew TarEntry.name) index := by
  rw [addEntry, listed]
  by_cases htype : isFile typeflag = true
  · rw [if_pos htype, List.foldl_cons, List.foldl_nil, addNew]
    simp only [htype, true_and]
  · rw [if_neg htype, if_neg fun h => htype h.1, List.foldl_nil]

theorem members_beyond (keepPaths : Bool) (h : f.canSeek = false ∧ f.content.length < pos.toNat) :
    members f keepPaths pos = ([], some (.fileTooShort f.name)) := by
  rw [members, if_pos h]

theorem Reads.skipTo (h : Reads f r) (hopen : r.atEnd = false) :
    (remaining f r = members f r.keepPaths r.nextEntryPosition ∧
        ¬(f.canSeek = false ∧ f.content.length < r.nextEntryPosition.toNat) ∧
          r.file.skipTo r.nextEntryPosition = (.ok (), r.file.moved r.nextEntryPosition)) ∨
      ∃ e p, r.file.skipTo r.nextEntryPosition = (.error e, r.file.moved p) ∧ remaining f r = ([], some e) ∧
        remaining f { r with file := r.file.moved p } = ([], after f e) ∧
          (f.canSeek = false → p.toNat ≤ f.content.length) := by
  have hcanSeek : r.file.canSeek = f.canSeek := by rw [h.file]; rfl
  have hcontent : r.file.content = f.content := by rw [h.file]; rfl
  have hname : r.file.name = f.name := by rw [h.file]; rfl
  rcases hseek : f.canSeek
  · have hinside : r.file.pos.toNat ≤ r.file.content.length := by
      rw [hcontent]
      exact h.inside hseek
    have hskip := File.skipTo_of_not_canSeek (hcanSeek.trans hseek) hinside r.nextEntryPosition
    rw [hname, hcontent] at hskip
    by_cases hback : r.nextEntryPosition < r.file.pos
    · rw [if_pos hback] at hskip
      refine .inr ⟨_, r.file.pos, hskip, ?_, ?_, fun _ => h.inside hseek⟩
      · rw [remaining, hopen, if_neg Bool.false_ne_true, if_pos ⟨hseek, hback⟩]
      · rw [remaining, after]
        simp only [hopen, Bool.false_eq_true, if_false, hseek, File.moved_pos, hback, and_self, if_true, false_or,
          reduceCtorEq]
    · rw [if_neg hback] at hskip
      have hremaining : remaining f r = members f r.keepPaths r.nextEntryPosition := by
        rw [remaining, hopen, if_neg Bool.false_ne_true, if_neg fun hor => hback hor.2]
      by_cases hinside : r.nextEntryPosition.toNat ≤ f.content.length
      · rw [if_pos hinside] at hskip
        exact .inl ⟨hremaining, fun hbeyond => Nat.not_lt.mpr hinside hbeyond.2, hskip⟩
      · rw [if_neg hinside] at hskip
        have hbeyond := members_beyond r.keepPaths ⟨hseek, Nat.not_le.mp hinside⟩
        have hsmall := f.small
        have hend : (UInt64.ofNat f.content.length).toNat = f.content.length := by
          rw [UInt64.toNat_ofNat']
          omega
        refine .inr ⟨_, _, hskip, hremaining.trans hbeyond, ?_, fun _ => hend.le⟩
        have hnot : ¬r.nextEntryPosition < UInt64.ofNat f.content.length := by
          rw [UInt64.lt_iff_toNat_lt, hend]
          omega
        rw [remaining, after]
        simp only [hopen, Bool.false_eq_true, if_false, File.pos_moved, hnot, and_false, hbeyond, or_true, if_true]
  · refine .inl ⟨?_, fun hbeyond => Bool.noConfusion hbeyond.1, File.skipTo_of_canSeek (hcanSeek.trans hseek) _⟩
    have hnot : ¬(f.canSeek = false ∧ r.nextEntryPosition < r.file.pos) := by
      rw [hseek]
      exact fun hor => Bool.noConfusion hor.1
    rw [remaining, hopen, if_neg Bool.false_ne_true, if_neg hnot]

theorem members_member {entry : TarEntry} (hnear : ¬(f.canSeek = false ∧ f.content.length < pos.toNat))
    (hheader : (f.bytesAt pos headerSize).length = headerSize ∧ getString (field (f.bytesAt pos headerSize) 0 100) ≠ [])
    (hentry : parseHeader keepPaths (f.bytesAt pos headerSize) (pos + UInt64.ofNat headerSize) = some entry) :
    members f keepPaths pos =
      let rest := members f keepPaths (nextPosition (pos + UInt64.ofNat headerSize) entry.length)
      (listed ((field (f.bytesAt pos headerSize) 156 1).headD 0) entry ++ rest.1, rest.2) := by
  rw [members, if_neg hnear, dif_pos hheader, hentry]

theorem members_invalid (hnear : ¬(f.canSeek = false ∧ f.content.length < pos.toNat))
    (hheader : (f.bytesAt pos headerSize).length = headerSize ∧ getString (field (f.bytesAt pos headerSize) 0 100) ≠ [])
    (hentry : parseHeader keepPaths (f.bytesAt pos headerSize) (pos + UInt64.ofNat headerSize) = none) :
    members f keepPaths pos = ([], some (.fileFormat f.name (lit "Invalid number"))) := by
  rw [members, if_neg hnear, dif_pos hheader, hentry]

theorem members_end (hnear : ¬(f.canSeek = false ∧ f.content.length < pos.toNat))
    (hheader : ¬((f.bytesAt pos headerSize).length = headerSize ∧
      getString (field (f.bytesAt pos headerSize) 0 100) ≠ [])) : members f keepPaths pos = ([], none) := by
  rw [members, if_neg hnear, dif_neg hheader]

theorem takeHeader_cases (r : TarReader) (hdr : Bytes) :
    ¬(hdr.length = headerSize ∧ getString (field hdr 0 100) ≠ []) ∧
        takeHeader r hdr = (.ok false, { r with atEnd := true }) ∨
      (hdr.length = headerSize ∧ getString (field hdr 0 100) ≠ []) ∧
        (parseHeader r.keepPaths hdr (r.nextEntryPosition + UInt64.ofNat headerSize) = none ∧
            takeHeader r hdr = (.error (.fileFormat r.file.name (lit "Invalid number")), r) ∨
          ∃ entry, parseHeader r.keepPaths hdr (r.nextEntryPosition + UInt64.ofNat headerSize) = some entry ∧
            takeHeader r hdr = (.ok true, { r with
              nextEntryPosition := nextPosition (r.nextEntryPosition + UInt64.ofNat headerSize) entry.length
              index := addEntry r.index ((field hdr 156 1).headD 0) entry })) := by
  rw [takeHeader]
  split_ifs with hlength hname
  · exact .inl ⟨fun h => h.2 hname, rfl⟩
  · refine .inr ⟨⟨hlength, hname⟩, ?_⟩
    rcases hentry : parseHeader r.keepPaths hdr (r.nextEntryPosition + UInt64.ofNat headerSize) with _ | entry
    · exact .inl ⟨rfl, by simp only [hentry]⟩
    · exact .inr ⟨entry, rfl, by simp only [hentry]⟩
  · exact .inl ⟨fun h => hlength h.1, rfl⟩

theorem Reads.inside_of_read (pos : UInt64) (hnear : ¬(f.canSeek = false ∧ f.content.length < pos.toNat))
    (hseek : f.canSeek = false) : (pos + UInt64.ofNat (f.bytesAt pos headerSize).length).toNat ≤ f.content.length := by
  have hpos : pos.toNat ≤ f.content.length := Nat.not_lt.mp fun h => hnear ⟨hseek, h⟩
  have hlength := f.length_bytesAt pos headerSize
  have hheader : headerSize = 512 := rfl
  have hsize : (UInt64.ofNat (f.bytesAt pos headerSize).length).toNat = (f.bytesAt pos headerSize).length := by
    rw [UInt64.toNat_ofNat']
    omega
  rw [File.toNat_add hpos (by omega), hsize]
  omega

theorem Reads.stepped_takeHeader (hopen : r.atEnd = false)
    (hremaining : remaining f r = members f r.keepPaths r.nextEntryPosition)
    (hnear : ¬(f.canSeek = false ∧ f.content.length < r.nextEntryPosition.toNat)) {file : File}
    (hfile : file = f.moved (r.nextEntryPosition + UInt64.ofNat (f.bytesAt r.nextEntryPosition headerSize).length))
    {out : Except FileError Bool}
    (hnext : takeHeader { r with file := file } (f.bytesAt r.nextEntryPosition headerSize) = (out, r')) :
    Stepped TarEntry.name source (Reads f) (remaining f) (after f) r out r' := by
  have hinside := Reads.inside_of_read r.nextEntryPosition hnear
  subst hfile
  rcases takeHeader_cases { r with file := f.moved _ } (f.bytesAt r.nextEntryPosition headerSize) with
    ⟨hend, heq⟩ | ⟨hheader, ⟨hentry, heq⟩ | ⟨entry, hentry, heq⟩⟩
  · cases heq.symm.trans hnext
    exact ⟨⟨rfl, hinside⟩, rfl, hremaining.trans (members_end hnear hend), by rw [remaining, if_pos rfl]⟩
  · cases heq.symm.trans hnext
    have hinvalid := members_invalid hnear hheader hentry
    have hlength := congrArg UInt64.ofNat hheader.1
    obtain ⟨-, hstart, -⟩ := nextPosition_le hheader.1 0
    have hpassed : r.nextEntryPosition < r.nextEntryPosition + UInt64.ofNat headerSize := by
      rw [UInt64.lt_iff_toNat_lt, hstart]
      exact Nat.lt_add_of_pos_right (by decide)
    refine ⟨⟨rfl, hinside⟩, rfl, hremaining.trans hinvalid, ?_⟩
    rw [remaining, after]
    rcases hseek : f.canSeek
    · simp only [hopen, Bool.false_eq_true, if_false, File.pos_moved, hlength, hpassed, and_self, if_true, false_or,
        reduceCtorEq]
    · simp only [hopen, Bool.false_eq_true, if_false, reduceCtorEq, false_and, true_or, if_true, hinvalid]
      rfl
  · cases heq.symm.trans hnext
    obtain ⟨-, hstart, honward⟩ := nextPosition_le hheader.1 entry.length
    have hlength := congrArg UInt64.ofNat hheader.1
    have hnot : ¬nextPosition (r.nextEntryPosition + UInt64.ofNat headerSize) entry.length <
        r.nextEntryPosition + UInt64.ofNat headerSize := by
      rw [UInt64.lt_iff_toNat_lt, hstart]
      omega
    refine ⟨⟨rfl, hinside⟩, _, ?_, addEntry_eq _ _ _⟩
    rw [hremaining, members_member hnear hheader hentry, remaining]
    simp only [hopen, Bool.false_eq_true, if_false, File.pos_moved, hlength, hnot, and_false]

theorem Reads.step (h : Reads f r) {out : Except FileError Bool} (hnext : readNextEntry r = (out, r')) :
    Stepped TarEntry.name source (Reads f) (remaining f) (after f) r out r' := by
  rcases hopen : r.atEnd
  · rcases h.skipTo hopen with ⟨hremaining, hnear, hskip⟩ | ⟨e, p, hskip, hremaining, hremaining', hinside⟩
    · rw [readNextEntry_eq hopen hskip] at hnext
      have hbytes : r.file.bytesAt r.nextEntryPosition headerSize = f.bytesAt r.nextEntryPosition headerSize := by
        rw [h.file]
        rfl
      rw [hbytes] at hnext
      refine Reads.stepped_takeHeader hopen hremaining hnear ?_ hnext
      rw [h.file]
      rfl
    · rw [readNextEntry_error hopen hskip] at hnext
      cases hnext
      refine ⟨⟨?_, hinside⟩, rfl, hremaining, hremaining'⟩
      rw [h.file]
      rfl
  · rw [readNextEntry, hopen] at hnext
    cases hnext
    have hremaining : remaining f r = ([], none) := by rw [remaining, if_pos hopen]
    exact ⟨h, rfl, hremaining, hremaining⟩

theorem foreseen (f : File) : Foreseen source (Reads f) (completed TarEntry.name source (remaining f)) (after f) :=
  .of_stepped TarEntry.name fun h => h.step

theorem completed_new {f : File} (hinside : f.canSeek = false → f.pos.toNat ≤ f.content.length) (keepPaths : Bool) :
    Reads f (new f keepPaths) ∧ completed TarEntry.name source (remaining f) (new f keepPaths) =
      (firsts TarEntry.name (members f keepPaths f.pos).1, (members f keepPaths f.pos).2) := by
  refine ⟨⟨rfl, hinside⟩, ?_⟩
  have hremaining : remaining f (new f keepPaths) = members f keepPaths f.pos := by
    rw [remaining, new, if_neg nofun, if_neg fun h => UInt64.lt_irrefl _ h.2]
  rw [completed_of_nil TarEntry.name rfl, hremaining]

end TarReader

/-! ### Zip files -/

namespace ZipReader

/-- `getDirectoryEntryByName` and `ZipDirEnum::getNextElement`, as requests to the index. -/
def source : Source ZipReader ZipEntry FileError where
  next := readNextEntry
  items := ZipReader.index
  left r := r.file.content.length - r.file.pos.toNat
  less := by
    intro r r' h
    obtain ⟨hinside, honward, hcontent⟩ := advances h
    have hheader : 0 < 4 + headerSize := by decide
    simp only [hcontent]
    omega

/-- A member is listed if it is no directory and can be read. -/
def listed (flags : UInt16) (entry : ZipEntry) : List ZipEntry :=
  if entry.name ≠ [] ∧ flags &&& gfEncrypted = 0 ∧ (entry.method = cmStored ∨ entry.method = cmDeflated) then [entry]
  else []

/-- The members of a zip file that are listed, from a position on, and the exception at which reading stops if it does
not come to the end. -/
def members (f : File) (keepPaths : Bool) (pos : UInt64) : List ZipEntry × Option FileError :=
  match _h : blockAt f keepPaths pos with
  | .last => ([], none)
  | .unsupported => ([], none)
  | .short => ([], some (.fileTooShort f.name))
  | .member flags entry =>
    let rest := members f keepPaths (entry.start + entry.compressedSize)
    (listed flags entry ++ rest.1, rest.2)
termination_by f.content.length - pos.toNat
decreasing_by
  obtain ⟨hinside, honward⟩ := nextPosition_le _h
  have : 0 < 4 + headerSize := by decide
  omega

def remaining (f : File) (r : ZipReader) : List ZipEntry × Option FileError :=
  if r.indexerReachedEnd ∨ r.hadUnsupportedFeature then ([], none) else members f r.keepPaths r.file.pos

/-- After an exception, the file is at its end. -/
def after (_ : FileError) : Option FileError := none

def Reads (f : File) (r : ZipReader) : Prop := r.file = f.moved r.file.pos

variable {f : File} {r r' : ZipReader}

theorem addEntry_eq (index : List ZipEntry) (flags : UInt16) (entry : ZipEntry) :
    addEntry index flags entry = (listed flags entry).foldl (addNew ZipEntry.name) index := by
  rw [addEntry, listed]
  by_cases hname : entry.name = []
  · rw [if_pos hname, if_neg fun h => h.1 hname, List.foldl_nil]
  · by_cases hreadable : flags &&& gfEncrypted = 0 ∧ (entry.method = cmStored ∨ entry.method = cmDeflated)
    · rw [if_neg hname, if_pos hreadable, if_pos (c := entry.name ≠ [] ∧ _) ⟨hname, hreadable⟩, List.foldl_cons,
        List.foldl_nil, addNew]
    · rw [if_neg hname, if_neg hreadable, if_neg fun h => hreadable h.2, List.foldl_nil]

theorem members_eq (f : File) (keepPaths : Bool) (pos : UInt64) :
    members f keepPaths pos =
      match blockAt f keepPaths pos with
      | .last => ([], none)
      | .unsupported => ([], none)
      | .short => ([], some (.fileTooShort f.name))
      | .member flags entry =>
        let rest := members f keepPaths (entry.start + entry.compressedSize)
        (listed flags entry ++ rest.1, rest.2) := by
  rw [members]
  split <;> next heq => simp only [heq]

theorem members_beyond (h : f.content.length ≤ pos.toNat) :
    members f keepPaths pos = ([], none) := by
  have hlength := f.length_bytesAt pos 4
  have hblock : blockAt f keepPaths pos = .last := by rw [blockAt, if_pos (by omega)]
  rw [members_eq, hblock]

theorem Reads.moved (h : Reads f r) (p : UInt64) : r.file.moved p = f.moved p := by
  rw [h]
  rfl

/-- The complete index does not change with a step, except that an exception is met only once. -/
theorem Reads.step (hseek : f.canSeek = true) (h : Reads f r) {out : Except FileError Bool}
    (hnext : readNextEntry r = (out, r')) : Stepped ZipEntry.name source (Reads f) (remaining f) after r out r' := by
  by_cases hclosed : r.indexerReachedEnd = true ∨ r.hadUnsupportedFeature = true
  · have hremaining : remaining f r = ([], none) := by rw [remaining, if_pos hclosed]
    rw [readNextEntry, if_pos hclosed] at hnext
    cases hnext
    exact ⟨h, rfl, hremaining, by rw [remaining, if_pos (.inl rfl)]⟩
  · obtain ⟨hend, hsupported⟩ := not_or.mp hclosed
    have houtcome := outcome_readNextEntry (Bool.eq_false_of_not_eq_true hend) (Bool.eq_false_of_not_eq_true hsupported)
    have hremaining : remaining f r = members f r.keepPaths r.file.pos := by rw [remaining, if_neg hclosed]
    have hblock : blockAt r.file r.keepPaths r.file.pos = blockAt f r.keepPaths r.file.pos := by
      rw [h]
      rfl
    rw [hnext, hblock] at houtcome
    generalize hat : blockAt f r.keepPaths r.file.pos = block at houtcome
    rw [members_eq, hat] at hremaining
    rcases block with _ | _ | _ | ⟨flags, entry⟩
    · obtain ⟨p, heq⟩ := houtcome
      cases heq
      exact ⟨h.moved p, rfl, hremaining, by rw [remaining, if_pos (.inl rfl)]⟩
    · obtain ⟨p, heq⟩ := houtcome
      cases heq
      exact ⟨h.moved p, rfl, hremaining, by rw [remaining, if_pos (.inr rfl)]⟩
    · obtain ⟨p, hp, heq⟩ := houtcome
      cases heq
      refine ⟨h.moved p, rfl, ?_, ?_⟩
      · rw [hremaining, h]
        rfl
      · rw [h] at hp
        rw [remaining, if_neg hclosed, File.pos_moved, members_beyond (f := f) hp]
        rfl
    · obtain heq | ⟨hfixed, -⟩ := houtcome
      · cases heq
        refine ⟨h.moved _, listed flags entry, ?_, addEntry_eq _ _ _⟩
        rw [hremaining, remaining, if_neg hclosed, File.pos_moved]
      · rw [h] at hfixed
        cases hfixed.symm.trans hseek

theorem foreseen (hseek : f.canSeek = true) :
    Foreseen source (Reads f) (completed ZipEntry.name source (remaining f)) after :=
  .of_stepped ZipEntry.name fun h => Reads.step hseek h

theorem completed_new (hseek : f.canSeek = true) (h : new f keepPaths = .ok r) :
    Reads f r ∧ completed ZipEntry.name source (remaining f) r =
      (firsts ZipEntry.name (members f keepPaths 0).1, (members f keepPaths 0).2) := by
  let start : ZipReader := ⟨f.moved 0, keepPaths, [], false, false⟩
  have hstart : completed ZipEntry.name source (remaining f) start =
      (firsts ZipEntry.name (members f keepPaths 0).1, (members f keepPaths 0).2) := by
    rw [completed_of_nil ZipEntry.name rfl, remaining, if_neg (by simp [start])]
    rfl
  have hreads : Reads f start := rfl
  rw [new] at h
  rcases hnext : readNextEntry start with ⟨e | _ | _, r'⟩ <;>
    rw [show readNextEntry ⟨{ f with pos := 0 }, keepPaths, [], false, false⟩ = _ from hnext] at h <;> cases h
  · obtain ⟨hr, -, hview⟩ := (foreseen hseek).stop hreads hnext
    exact ⟨hr, hview.trans hstart⟩
  · obtain ⟨hr, hview, -⟩ := (foreseen hseek).more hreads hnext
    exact ⟨hr, hview.trans hstart⟩

end ZipReader

/-! ### What has been read does not show -/

/-- **The index is read on demand, and it does not show.** All lookups and enumerations are answered as if the members
had been listed in advance: the first one with a name is found, and each name is enumerated once, in the order of the
file. Where reading the index stops with an exception, who gets there receives it: of a tar file every time, of a zip
file only once. -/
theorem lazy_index_unobservable {f : File} (hinside : f.canSeek = false → f.pos.toNat ≤ f.content.length)
    (keepPaths : Bool) (requests : List (Request Bytes)) :
    TarReader.source.answers TarEntry.name (TarReader.new f keepPaths) requests =
        answers TarEntry.name (TarReader.members f keepPaths f.pos) (TarReader.after f) requests ∧
      ∀ r : ZipReader, f.canSeek = true → ZipReader.new f keepPaths = .ok r →
        ZipReader.source.answers ZipEntry.name r requests =
          answers ZipEntry.name (ZipReader.members f keepPaths 0) ZipReader.after requests := by
  constructor
  · obtain ⟨hreads, hcompleted⟩ := TarReader.completed_new hinside keepPaths
    exact (TarReader.foreseen f).answers_eq TarEntry.name hreads hcompleted requests
  · intro r hseek hnew
    obtain ⟨hreads, hcompleted⟩ := ZipReader.completed_new hseek hnew
    exact (ZipReader.foreseen hseek).answers_eq ZipEntry.name hreads hcompleted requests

/-- A member `a` without data, and the begin of another one. -/
def truncatedZip : File where
  name := lit "t.zip"
  content := [0x50, 0x4B, 3, 4, 20, 0, 0, 0, 0, 0, 0, 0, 0, 0, 0, 0, 0, 0, 0, 0, 0, 0, 0, 0, 0, 0, 1, 0, 0, 0] ++
    lit "a" ++ [0x50, 0x4B, 3, 4]
  canSeek := true
  pos := 0
  small := by decide

def truncatedZipReader : ZipReader := ⟨truncatedZip.moved 31, false, [⟨lit "a", 0, 31, 0, 0⟩], false, false⟩

theorem lazy_index_unobservable_truncated :
    ZipReader.new truncatedZip false = .ok truncatedZipReader ∧
      TarReader.source.answers TarEntry.name (TarReader.new truncatedZip false) [.lookup (lit "a")] =
        answers TarEntry.name (TarReader.members truncatedZip false 0) (TarReader.after truncatedZip)
          [.lookup (lit "a")] ∧
        ZipReader.source.answers ZipEntry.name truncatedZipReader [.lookup (lit "a"), .lookup (lit "b")] =
          answers ZipEntry.name (ZipReader.members truncatedZip false 0) ZipReader.after
            [.lookup (lit "a"), .lookup (lit "b")] :=
  have hnew : ZipReader.new truncatedZip false = .ok truncatedZipReader := by decide
  ⟨hnew, (lazy_index_unobservable (f := truncatedZip) nofun false [.lookup (lit "a")]).1,
    (lazy_index_unobservable (f := truncatedZip) nofun false [.lookup (lit "a"), .lookup (lit "b")]).2 _ rfl hnew⟩

/-- No member is called `b`, but that is not what the first lookup reports, and the second one reports something else. -/
theorem lookup_of_truncated_zip :
    ZipReader.new truncatedZip false = .ok truncatedZipReader ∧
      ZipReader.members truncatedZip false 0 = ([⟨lit "a", 0, 31, 0, 0⟩], some (.fileTooShort (lit "t.zip"))) ∧
        ZipReader.source.answers ZipEntry.name truncatedZipReader [.lookup (lit "b"), .lookup (lit "b")] =
          [.error (.fileTooShort (lit "t.zip")), .ok none] := by
  have hmember : ZipReader.blockAt truncatedZip false 0 = .member 0 ⟨lit "a", 0, 31, 0, 0⟩ := by rfl
  have hshort : ZipReader.blockAt truncatedZip false 31 = .short := by rfl
  have hfirst : ZipReader.source.find (fun a => a.name = lit "b") truncatedZipReader =
      (.error (.fileTooShort (lit "t.zip")), { truncatedZipReader with file := truncatedZip.moved 35 }) :=
    Loop.complete_of_run _ 2 rfl
  have hsecond : ZipReader.source.find (fun a => a.name = lit "b")
      { truncatedZipReader with file := truncatedZip.moved 35 } =
        (.ok none, { truncatedZipReader with file := truncatedZip.moved 35, indexerReachedEnd := true }) :=
    Loop.complete_of_run _ 2 rfl
  refine ⟨by decide, ?_, ?_⟩
  · rw [ZipReader.members_eq, hmember]
    simp only
    rw [show (31 : UInt64) + 0 = 31 from rfl, ZipReader.members_eq, hshort]
    rfl
  · simp only [Source.answers, Machine.outputs, Source.request, hfirst, hsecond]

end Afl.Io.Archive
