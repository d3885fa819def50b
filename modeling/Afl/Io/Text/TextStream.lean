import Afl.Io.Stream.BufferedStream
import Afl.Io.Text.TextFile

/-!
# Text files on buffered streams

`TextFile` reads its lines byte by byte from the `BufferedStream` it is, and looks at the byte after a CR with
`peekByte`. That may be in the next buffer, which makes no difference; but where there is no such byte, the null pointer
is then taken for the end of the file, although the CR has ended the line.
-/

namespace Afl.Io.TextFile

/-! ### The file -/

structure Charset where
  encode : Bytes → Bytes
  decode : Bytes → Bytes

/-- `Utf8Charset` copies its data. -/
def Charset.utf8 : Charset := ⟨id, id⟩

/-- A line end that `doWriteNewline` writes: `NEWLINE` of the system, or LF. -/
inductive Newline
  | lf
  | crlf

def Newline.bytes : Newline → Bytes
  | lf => [10]
  | crlf => [13, 10]

structure File where
  stream : BufferedStream
  charset : Charset
  utf8Snoop : Bool
  newline : Newline

namespace File

def BOM : Bytes := [0xEF, 0xBB, 0xBF]

/-- The loop of `doReadLine`: the raw line, and whether `pch` is not null in the end. Every round takes a byte. -/
def rawLoop : Nat → File → Bytes → (Bytes × Bool) × File
  | 0, f, rawLine => ((rawLine, false), f)
  | fuel + 1, f, rawLine =>
    match f.stream.readByte with
    | (none, b) => ((rawLine, false), { f with stream := b })
    | (some ch, b) =>
      if ch = 10 then ((rawLine, true), { f with stream := b })
      else if ch = 13 then
        match b.peekByte with
        | (none, b) => ((rawLine, false), { f with stream := b })
        | (some next, b) => ((rawLine, true), { f with stream := if next = 10 then b.readByte.2 else b })
      else
        let rawLine := rawLine ++ [ch]
        if f.utf8Snoop ∧ rawLine.length = 3 then
          if rawLine = BOM then rawLoop fuel { f with stream := b, charset := .utf8, utf8Snoop := false } []
          else rawLoop fuel { f with stream := b, utf8Snoop := false } rawLine
        else rawLoop fuel { f with stream := b } rawLine

/-- `doReadLine`: the line, if it returns true. -/
def doReadLine (f : File) : Option Bytes × File :=
  let ((rawLine, ended), f) := rawLoop (f.stream.getSize + 1) f []
  let f := { f with utf8Snoop := false }
  -- if the file ends in Ctrl-Z, remove that
  let rawLine := if ¬ended ∧ rawLine.getLast? = some 26 then rawLine.dropLast else rawLine
  if ended ∨ rawLine ≠ [] then (some (f.charset.decode rawLine), f) else (none, f)

/-- `while (readLine(line)) ...`: all lines. Every line takes a byte. -/
def readLoop : Nat → File → List Bytes
  | 0, _ => []
  | fuel + 1, f =>
    match f.doReadLine with
    | (none, _) => []
    | (some line, f) => line :: readLoop fuel f

def readLines (f : File) : List Bytes := readLoop (f.stream.getSize + 1) f

def fullWrite : Nat → BufferedStream → Bytes → BufferedStream
  | 0, b, _ => b
  | fuel + 1, b, m =>
    if m = [] then b
    else
      let (n, b) := b.write m
      fullWrite fuel b (m.drop n)

def doWriteText (f : File) (text : Bytes) : File :=
  { f with stream := fullWrite (f.charset.encode text).length f.stream (f.charset.encode text) }

def doWriteNewline (f : File) : File :=
  { f with stream := fullWrite f.newline.bytes.length f.stream f.newline.bytes }

/-- `TextWriter::writeText`: newlines in the text are written by `doWriteNewline`. -/
def writeText : Nat → File → Bytes → File
  | 0, f, _ => f
  | fuel + 1, f, data =>
    if data = [] then f
    else
      let n := (data.findIdx? (· == 10)).getD data.length
      let f := f.doWriteText (data.take n)
      let data := data.drop n
      if data = [] then f else writeText fuel f.doWriteNewline (data.drop 1)

def writeLine (f : File) (line : Bytes) : File := (writeText line.length f line).doWriteNewline

def flush (f : File) : File := { f with stream := f.stream.flush }

def setPos (f : File) (pos : Nat) : File := { f with stream := f.stream.setPos pos }

/-- A file on a stream, with the character set given by `setCharsetNew`. -/
def new (s : InternalStream) (newline : Newline) : File := ⟨.new s, .utf8, false, newline⟩

end File

/-! ### Reading through the buffer -/

/-- The stream has the content `data`, of which `rest` is still to be read. -/
def Reads (b : BufferedStream) (data rest : Bytes) : Prop := ∃ pos, b.Shows ⟨data, pos⟩ ∧ data.drop pos = rest

section

variable {b : BufferedStream} {data rest : Bytes}

theorem Reads.readByte_nil (h : Reads b data []) : b.readByte.1 = none ∧ Reads b.readByte.2 data [] := by
  obtain ⟨pos, hshows, hrest⟩ := h
  obtain ⟨hbyte, hnext⟩ := hshows.readByte
  rw [hrest] at hbyte hnext
  exact ⟨hbyte, pos, hnext, hrest⟩

theorem Reads.readByte_cons {ch : UInt8} (h : Reads b data (ch :: rest)) :
    b.readByte.1 = some ch ∧ Reads b.readByte.2 data rest := by
  obtain ⟨pos, hshows, hrest⟩ := h
  obtain ⟨hbyte, hnext⟩ := hshows.readByte
  rw [hrest] at hbyte hnext
  refine ⟨hbyte, pos + 1, hnext, ?_⟩
  rw [← List.drop_drop, hrest]
  rfl

theorem Reads.peekByte (h : Reads b data rest) : b.peekByte.1 = rest.head? ∧ Reads b.peekByte.2 data rest := by
  obtain ⟨pos, hshows, rfl⟩ := h
  exact ⟨hshows.head_prepareRead, pos, hshows.prepareRead.2.1, rfl⟩

theorem Reads.getSize (h : Reads b data rest) : b.getSize = data.length := by
  obtain ⟨pos, hshows, -⟩ := h
  exact hshows.getSize

theorem Reads.length_le (h : Reads b data rest) : rest.length ≤ data.length := by
  obtain ⟨pos, -, rfl⟩ := h
  rw [List.length_drop]
  exact Nat.sub_le _ _

end

section

variable {f : File} {data rest : Bytes}

theorem rawLoop_eq (hsnoop : f.utf8Snoop = false) {fuel : Nat} (hfuel : rest.length < fuel)
    (h : Reads f.stream data rest) (raw : Bytes) :
    ∃ b, File.rawLoop fuel f raw = ((raw ++ (rawLine rest).1, (rawLine rest).2.isSome), { f with stream := b }) ∧
      Reads b data ((rawLine rest).2.getD []) := by
  induction fuel generalizing f rest raw with
  | zero => exact absurd hfuel (Nat.not_lt_zero _)
  | succ fuel ih =>
    cases rest with
    | nil =>
      obtain ⟨hbyte, hnext⟩ := h.readByte_nil
      refine ⟨f.stream.readByte.2, ?_, hnext⟩
      rw [File.rawLoop, ← Prod.mk.eta (p := f.stream.readByte), hbyte, rawLine, List.append_nil]
      rfl
    | cons ch rest =>
      obtain ⟨hbyte, hnext⟩ := h.readByte_cons
      rw [File.rawLoop, ← Prod.mk.eta (p := f.stream.readByte), hbyte, rawLine]
      dsimp only
      by_cases hlf : ch = 10
      · rw [if_pos hlf, if_pos hlf, List.append_nil]
        exact ⟨f.stream.readByte.2, rfl, hnext⟩
      · rw [if_neg hlf, if_neg hlf]
        by_cases hcr : ch = 13
        · obtain ⟨hpeek, hpeeked⟩ := hnext.peekByte
          rw [if_pos hcr, if_pos hcr, ← Prod.mk.eta (p := f.stream.readByte.2.peekByte), hpeek, List.append_nil]
          cases rest with
          | nil => exact ⟨f.stream.readByte.2.peekByte.2, rfl, hpeeked⟩
          | cons next rest =>
            rw [if_neg (List.cons_ne_nil _ _), List.head?_cons]
            by_cases hpair : next = 10
            · rw [if_pos (congrArg some hpair)]
              refine ⟨_, rfl, ?_⟩
              rw [if_pos hpair]
              exact hpeeked.readByte_cons.2
            · rw [if_neg fun h => hpair (Option.some.inj h)]
              refine ⟨_, rfl, ?_⟩
              rw [if_neg hpair]
              exact hpeeked
        · rw [if_neg hcr, if_neg hcr, hsnoop, if_neg (fun h => Bool.false_ne_true h.1)]
          obtain ⟨b, hloop, hrest⟩ := ih (f := { f with stream := f.stream.readByte.2 }) hsnoop
            (Nat.lt_of_succ_lt_succ hfuel) hnext (raw ++ [ch])
          refine ⟨b, ?_, hrest⟩
          rw [← hsnoop, hloop, List.append_assoc]
          rfl

theorem doReadLine_eq (hsnoop : f.utf8Snoop = false) (h : Reads f.stream data rest) :
    ∃ b, f.doReadLine = ((readLine rest).map fun r => f.charset.decode r.1, { f with stream := b }) ∧
      Reads b data (((readLine rest).map Prod.snd).getD []) := by
  obtain ⟨b, hloop, hrest⟩ := rawLoop_eq hsnoop
    (show rest.length < f.stream.getSize + 1 by rw [h.getSize]; exact Nat.lt_succ_of_le h.length_le) h []
  refine ⟨b, ?_⟩
  rw [List.nil_append] at hloop
  rw [File.doReadLine, hloop, readLine]
  rcases hraw : rawLine rest with ⟨line, _ | rest'⟩
  · rw [hraw] at hrest
    dsimp only
    simp only [Option.isSome_none, Bool.false_eq_true, not_false_eq_true, true_and, false_or, ne_eq, ite_not]
    generalize (if line.getLast? = some 26 then line.dropLast else line) = stripped
    rw [← hsnoop]
    split_ifs with hempty
    · exact ⟨rfl, hrest⟩
    · exact ⟨rfl, hrest⟩
  · rw [hraw] at hrest
    refine ⟨?_, hrest⟩
    simp only [Option.isSome_some, not_true, false_and, if_false, true_or, if_true]
    rw [← hsnoop]
    rfl

theorem readLoop_eq (hsnoop : f.utf8Snoop = false) (hcharset : f.charset = .utf8) {fuel : Nat}
    (hfuel : rest.length < fuel) (h : Reads f.stream data rest) : File.readLoop fuel f = lines rest := by
  induction fuel generalizing f rest with
  | zero => exact absurd hfuel (Nat.not_lt_zero _)
  | succ fuel ih =>
    obtain ⟨b, hline, hrest⟩ := doReadLine_eq hsnoop h
    rw [File.readLoop, hline]
    cases hread : readLine rest with
    | none =>
      rw [lines_of_readLine_none hread]
      rfl
    | some r =>
      rw [hread] at hrest
      have hrest : Reads b data r.2 := hrest
      have hshorter := length_readLine hread
      have hrec := ih (f := { f with stream := b }) hsnoop hcharset (by omega) hrest
      rw [lines_of_readLine hread, ← hrec]
      show f.charset.decode r.1 :: _ = _
      rw [hcharset]
      rfl

theorem readLines_eq (hsnoop : f.utf8Snoop = false) (hcharset : f.charset = .utf8) (h : Reads f.stream data rest) :
    f.readLines = lines rest := by
  refine readLoop_eq hsnoop hcharset ?_ h
  rw [h.getSize]
  exact Nat.lt_succ_of_le h.length_le

end

/-! ### Lines of a content -/

/-- Split a content at each CR LF pair, lone CR and LF: the lines these end, and the tail that is not ended. -/
def segments : Bytes → List Bytes × Bytes
  | [] => ([], [])
  | 10 :: data => ([] :: (segments data).1, (segments data).2)
  | 13 :: 10 :: data => ([] :: (segments data).1, (segments data).2)
  | 13 :: data => ([] :: (segments data).1, (segments data).2)
  | ch :: data =>
    match segments data with
    | ([], tail) => ([], ch :: tail)
    | (line :: lines, tail) => ((ch :: line) :: lines, tail)

def stripCtrlZ (line : Bytes) : Bytes := if line.getLast? = some 26 then line.dropLast else line

/-- The lines of a content. The tail loses one Ctrl-Z, and it is a line if there is something left. -/
def splitLines (data : Bytes) : List Bytes :=
  (segments data).1 ++ if stripCtrlZ (segments data).2 = [] then [] else [stripCtrlZ (segments data).2]

/-- The content ends in a CR, and the line that this ends is empty or ends in Ctrl-Z. -/
def LosesLine (data : Bytes) : Prop :=
  ∃ start, data = start ++ [13] ∧ start.getLast? ∈ [none, some 10, some 13, some 26]

def Plain (line : Bytes) : Prop := ∀ ch ∈ line, ch ≠ 10 ∧ ch ≠ 13

instance (line : Bytes) : Decidable (Plain line) := inferInstanceAs (Decidable (∀ ch ∈ line, _))

/-- A line end, given what follows it. -/
def Ending (ending rest : Bytes) : Prop :=
  ending = [10] ∨ ending = [13, 10] ∨ ending = [13] ∧ rest ≠ [] ∧ rest.head? ≠ some 10

/-- A content is a line without an end, a line that ends with the content, or a line, its end and more. -/
theorem line_cases (data : Bytes) :
    ∃ line, Plain line ∧ (data = line ∨ data = line ++ [13] ∨
      ∃ ending rest, data = line ++ (ending ++ rest) ∧ Ending ending rest) := by
  induction data with
  | nil => exact ⟨[], nofun, .inl rfl⟩
  | cons ch data ih =>
    by_cases hlf : ch = 10
    · exact ⟨[], nofun, .inr (.inr ⟨[10], data, by rw [hlf]; rfl, .inl rfl⟩)⟩
    by_cases hcr : ch = 13
    · refine ⟨[], nofun, .inr ?_⟩
      rcases data with _ | ⟨next, data⟩
      · exact .inl (by rw [hcr]; rfl)
      · by_cases hpair : next = 10
        · exact .inr ⟨[13, 10], data, by rw [hcr, hpair]; rfl, .inr (.inl rfl)⟩
        · exact .inr ⟨[13], next :: data, by rw [hcr]; rfl,
            .inr (.inr ⟨rfl, List.cons_ne_nil _ _, fun h => hpair (Option.some.inj h)⟩)⟩
    · obtain ⟨line, hplain, hdata⟩ := ih
      refine ⟨ch :: line, List.forall_mem_cons.mpr ⟨⟨hlf, hcr⟩, hplain⟩, ?_⟩
      rcases hdata with rfl | rfl | ⟨ending, rest, rfl, hending⟩
      · exact .inl rfl
      · exact .inr (.inl rfl)
      · exact .inr (.inr ⟨ending, rest, rfl, hending⟩)

section

variable {line ending rest : Bytes}

theorem rawLine_plain_append (h : Plain line) (tail : Bytes) :
    rawLine (line ++ tail) = (line ++ (rawLine tail).1, (rawLine tail).2) := by
  induction line with
  | nil => rfl
  | cons ch line ih =>
    obtain ⟨hch, hline⟩ := List.forall_mem_cons.mp h
    rw [List.cons_append, rawLine, if_neg hch.1, if_neg hch.2, ih hline]
    rfl

theorem rawLine_ending (h : Ending ending rest) : rawLine (ending ++ rest) = ([], some rest) := by
  rcases h with rfl | rfl | ⟨rfl, hne, hhead⟩
  · rfl
  · rfl
  · rw [List.singleton_append, rawLine, if_neg (by decide), if_pos rfl, if_neg hne, if_neg hhead]

theorem readLine_ending (hline : Plain line) (hending : Ending ending rest) :
    readLine (line ++ (ending ++ rest)) = some (line, rest) := by
  rw [readLine, rawLine_plain_append hline, rawLine_ending hending, List.append_nil]

theorem segments_ending (h : Ending ending rest) :
    segments (ending ++ rest) = ([] :: (segments rest).1, (segments rest).2) := by
  rcases h with rfl | rfl | ⟨rfl, hne, hhead⟩
  · rfl
  · rfl
  · rw [List.singleton_append, segments]
    rintro data rfl
    exact hhead rfl

theorem segments_cons {ch : UInt8} (hlf : ch ≠ 10) (hcr : ch ≠ 13) (data : Bytes) :
    segments (ch :: data) =
      match segments data with
      | ([], tail) => ([], ch :: tail)
      | (line :: lines, tail) => ((ch :: line) :: lines, tail) := by
  rw [segments]
  · exact hlf
  · exact fun _ h _ => hcr h
  · exact hcr

theorem segments_plain (h : Plain line) : segments line = ([], line) := by
  induction line with
  | nil => rfl
  | cons ch line ih =>
    obtain ⟨hch, hline⟩ := List.forall_mem_cons.mp h
    rw [segments_cons hch.1 hch.2, ih hline]

theorem segments_plain_append (h : Plain line) {tail last : Bytes} {lines : List Bytes}
    (htail : segments tail = ([] :: lines, last)) : segments (line ++ tail) = (line :: lines, last) := by
  induction line with
  | nil => exact htail
  | cons ch line ih =>
    obtain ⟨hch, hline⟩ := List.forall_mem_cons.mp h
    rw [List.cons_append, segments_cons hch.1 hch.2, ih hline]

theorem splitLines_ending (hline : Plain line) (hending : Ending ending rest) :
    splitLines (line ++ (ending ++ rest)) = line :: splitLines rest := by
  rw [splitLines, segments_plain_append hline (segments_ending hending)]
  rfl

end

theorem losesLine_concat (start : Bytes) (ch : UInt8) :
    LosesLine (start ++ [ch]) ↔ ch = 13 ∧ start.getLast? ∈ [none, some 10, some 13, some 26] := by
  constructor
  · rintro ⟨start', heq, hlast⟩
    obtain ⟨rfl, hch⟩ := List.append_inj' heq rfl
    exact ⟨(List.cons.inj hch).1, hlast⟩
  · rintro ⟨rfl, hlast⟩
    exact ⟨start, rfl, hlast⟩

theorem losesLine_ending {line ending rest : Bytes} (h : Ending ending rest) :
    LosesLine (line ++ (ending ++ rest)) ↔ LosesLine rest := by
  rcases List.eq_nil_or_concat' rest with rfl | ⟨rest, ch, rfl⟩
  · have hlf : ∃ start, line ++ (ending ++ []) = start ++ [10] := by
      rcases h with rfl | rfl | ⟨-, hne, -⟩
      · exact ⟨line, rfl⟩
      · exact ⟨line ++ [13], by rw [List.append_nil, List.append_assoc]; rfl⟩
      · exact absurd rfl hne
    obtain ⟨start, hstart⟩ := hlf
    rw [hstart, losesLine_concat]
    refine iff_of_false (fun h => absurd h.1 (by decide)) ?_
    rintro ⟨start, heq, -⟩
    exact List.append_ne_nil_of_right_ne_nil start (List.cons_ne_nil _ _) heq.symm
  · have hending : ending.getLast? = some 10 ∨ ending.getLast? = some 13 := by
      rcases h with rfl | rfl | ⟨rfl, -, -⟩
      · exact .inl rfl
      · exact .inl rfl
      · exact .inr rfl
    rw [← List.append_assoc, ← List.append_assoc, losesLine_concat, losesLine_concat]
    refine and_congr_right fun _ => ?_
    rw [List.getLast?_append, List.getLast?_append]
    cases rest.getLast? with
    | some last => rfl
    | none => rcases hending with hending | hending <;> rw [hending] <;> simp

theorem lines_of_rawLine_none {data line : Bytes} (h : rawLine data = (line, none)) :
    lines data = if stripCtrlZ line = [] then [] else [stripCtrlZ line] := by
  have hread : readLine data = if stripCtrlZ line = [] then none else some (stripCtrlZ line, []) := by
    rw [readLine, h]
    exact ite_not _ _ _
  split_ifs at hread ⊢ with hempty
  · exact lines_of_readLine_none hread
  · rw [lines_of_readLine hread, lines_nil]

theorem stripped_eq_iff {line : Bytes} (h : Plain line) :
    (if stripCtrlZ line = [] then [] else [stripCtrlZ line]) = [line] ↔
      line.getLast? ∉ [none, some 10, some 13, some 26] := by
  rcases List.eq_nil_or_concat' line with rfl | ⟨start, ch, rfl⟩
  · decide
  · obtain ⟨hlf, hcr⟩ := h ch (List.mem_append_right _ List.mem_cons_self)
    rw [stripCtrlZ, List.getLast?_concat, List.dropLast_concat]
    by_cases hctrlZ : ch = 26
    · rw [if_pos (congrArg some hctrlZ), hctrlZ]
      refine iff_of_false (fun heq => ?_) (by decide)
      split_ifs at heq
      exact absurd (congrArg List.length (List.cons.inj heq).1) (by simp)
    · rw [if_neg fun heq => hctrlZ (Option.some.inj heq), if_neg (List.append_ne_nil_of_right_ne_nil start (by simp))]
      exact iff_of_true rfl (by simp [hlf, hcr, hctrlZ])

/-- **The lines read** are those of the content, unless the last one is lost. -/
theorem lines_eq_iff (data : Bytes) : lines data = splitLines data ↔ ¬LosesLine data := by
  induction hn : data.length using Nat.strong_induction_on generalizing data with
  | _ n ih =>
    obtain ⟨line, hline, hdata⟩ := line_cases data
    rcases hdata with rfl | rfl | ⟨ending, rest, rfl, hending⟩
    · -- a tail is read as it is
      have hraw := rawLine_plain_append hline []
      rw [List.append_nil, rawLine, List.append_nil] at hraw
      rw [lines_of_rawLine_none hraw, splitLines, segments_plain hline]
      refine iff_of_true rfl ?_
      rintro ⟨start, rfl, -⟩
      exact (hline 13 (List.mem_append_right _ List.mem_cons_self)).2 rfl
    · -- the CR ends the line, and it is read as a tail
      have hraw : rawLine (line ++ [13]) = (line ++ [], none) := rawLine_plain_append hline [13]
      rw [List.append_nil] at hraw
      have hsplit : splitLines (line ++ [13]) = [line] := by
        rw [splitLines, segments_plain_append hline (show segments [13] = ([[]], []) from rfl)]
        rfl
      rw [lines_of_rawLine_none hraw, hsplit, losesLine_concat, and_iff_right rfl]
      exact stripped_eq_iff hline
    · have hread := readLine_ending hline hending
      rw [lines_of_readLine hread, splitLines_ending hline hending, losesLine_ending hending,
        ← ih rest.length (hn ▸ length_readLine hread) rest rfl, List.cons_inj_right]

/-! ### Writing through the buffer -/

theorem write_at_end (data m : Bytes) :
    (InternalStream.write ⟨data, data.length⟩ m).2 = ⟨data ++ m, (data ++ m).length⟩ := by
  have hpadded : (InternalStream.mk data data.length).padded = data := InternalStream.padded_of_le le_rfl
  rw [InternalStream.write, hpadded, List.take_length, List.drop_eq_nil_of_le (Nat.le_add_right _ _), List.append_nil,
    List.length_append]

theorem fullWrite_at_end {b : BufferedStream} {data : Bytes} (h : b.Shows ⟨data, data.length⟩) (m : Bytes) :
    (File.fullWrite m.length b m).Shows ⟨data ++ m, (data ++ m).length⟩ := by
  cases m with
  | nil => rwa [List.append_nil]
  | cons ch m =>
    obtain ⟨hcount, hshows⟩ := h.write (m := ch :: m) (fun hnil => absurd hnil (List.cons_ne_nil _ _))
    rw [write_at_end] at hshows
    rw [List.length_cons, File.fullWrite, if_neg (List.cons_ne_nil _ _)]
    dsimp only
    rw [hcount, List.drop_length]
    cases m.length <;> exact hshows

/-- The file was written up to the end of the given content. -/
structure Written (f : File) (newline : Newline) (data : Bytes) : Prop where
  stream : f.stream.Shows ⟨data, data.length⟩
  charset : f.charset = .utf8
  snoop : f.utf8Snoop = false
  newline : f.newline = newline

section

variable {f : File} {newline : Newline} {data : Bytes}

theorem Written.doWriteText (h : Written f newline data) (text : Bytes) :
    Written (f.doWriteText text) newline (data ++ text) := by
  have hencode : f.charset.encode text = text := by rw [h.charset]; rfl
  refine ⟨?_, h.charset, h.snoop, h.newline⟩
  rw [File.doWriteText, hencode]
  exact fullWrite_at_end h.stream text

theorem Written.doWriteNewline (h : Written f newline data) :
    Written f.doWriteNewline newline (data ++ newline.bytes) := by
  refine ⟨?_, h.charset, h.snoop, h.newline⟩
  rw [File.doWriteNewline, h.newline]
  exact fullWrite_at_end h.stream newline.bytes

theorem writeText_plain {line : Bytes} (hline : Plain line) (f : File) :
    File.writeText line.length f line = if line = [] then f else f.doWriteText line := by
  cases line with
  | nil => rfl
  | cons ch line =>
    have hfind : (ch :: line).findIdx? (· == 10) = none := by
      rw [List.findIdx?_eq_none_iff]
      exact fun c hc => beq_eq_false_iff_ne.mpr (hline c hc).1
    rw [List.length_cons, File.writeText, if_neg (List.cons_ne_nil _ _), if_neg (List.cons_ne_nil _ _), hfind]
    dsimp only
    rw [Option.getD_none, List.drop_length, if_pos rfl, List.take_length]

theorem Written.writeLine (h : Written f newline data) {line : Bytes} (hline : Plain line) :
    Written (f.writeLine line) newline (data ++ (line ++ newline.bytes)) := by
  rw [File.writeLine, writeText_plain hline, ← List.append_assoc]
  split_ifs with hempty
  · rw [hempty, List.append_nil]
    exact h.doWriteNewline
  · exact (h.doWriteText line).doWriteNewline

theorem Written.writeLines (h : Written f newline data) {ls : List Bytes} (hls : ∀ line ∈ ls, Plain line) :
    Written (ls.foldl File.writeLine f) newline (data ++ ls.flatMap (· ++ newline.bytes)) := by
  induction ls generalizing f data with
  | nil => rwa [List.flatMap_nil, List.append_nil]
  | cons line ls ih =>
    obtain ⟨hline, hls⟩ := List.forall_mem_cons.mp hls
    rw [List.flatMap_cons, ← List.append_assoc]
    exact ih (h.writeLine hline) hls

theorem ending_newline (newline : Newline) (rest : Bytes) : Ending newline.bytes rest := by
  cases newline with
  | lf => exact .inl rfl
  | crlf => exact .inr (.inl rfl)

theorem lines_writeLines (newline : Newline) {ls : List Bytes} (hls : ∀ line ∈ ls, Plain line) :
    lines (ls.flatMap (· ++ newline.bytes)) = ls := by
  induction ls with
  | nil => exact lines_nil
  | cons line ls ih =>
    obtain ⟨hline, hls⟩ := List.forall_mem_cons.mp hls
    rw [List.flatMap_cons, List.append_assoc,
      lines_of_readLine (readLine_ending hline (ending_newline newline _)), ih hls]

theorem Written.readLines (h : Written f newline data) : (f.flush.setPos 0).readLines = lines data :=
  readLines_eq (f := f.flush.setPos 0) h.snoop h.charset ⟨0, h.stream.flush.setPos 0, rfl⟩

end

/-- **Lines are read as they were written**, with either line end. The lines of any content are those between its line
ends exactly if it does not end in a CR after an empty line or a Ctrl-Z. -/
theorem textFile_lines_iff (newline : Newline) {ls : List Bytes} (hls : ∀ line ∈ ls, Plain line) (content : Bytes) :
    ((ls.foldl File.writeLine (.new ⟨[], 0⟩ newline)).flush.setPos 0).readLines = ls ∧
      ((File.new ⟨content, 0⟩ newline).readLines = splitLines content ↔ ¬LosesLine content) := by
  have hnew : Written (.new ⟨[], 0⟩ newline) newline [] := ⟨BufferedStream.shows_new _, rfl, rfl, rfl⟩
  have hwritten := hnew.writeLines hls
  rw [List.nil_append] at hwritten
  have hcontent : Reads (File.new ⟨content, 0⟩ newline).stream content content :=
    ⟨0, BufferedStream.shows_new _, rfl⟩
  rw [hwritten.readLines, lines_writeLines newline hls, readLines_eq rfl rfl hcontent]
  exact ⟨rfl, lines_eq_iff content⟩

theorem textFile_lines_two :
    (([[97], []].foldl File.writeLine (.new ⟨[], 0⟩ .crlf)).flush.setPos 0).readLines = [[97], []] ∧
      (File.new ⟨[97, 13, 98], 0⟩ .crlf).readLines = [[97], [98]] := by
  have hls : ∀ line ∈ ([[97], []] : List Bytes), Plain line := by simp [Plain]
  obtain ⟨hback, hlines⟩ := textFile_lines_iff .crlf hls [97, 13, 98]
  refine ⟨hback, hlines.mpr ?_⟩
  rintro ⟨start, heq, -⟩
  exact absurd (congrArg List.getLast? heq) (by simp)

/-- The empty line before the CR is lost. -/
theorem textFile_loses_line :
    (File.new ⟨[13], 0⟩ .lf).readLines = [] ∧ splitLines [13] = [[]] := by
  decide

end Afl.Io.TextFile
