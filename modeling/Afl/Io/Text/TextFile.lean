import Afl.Base.Bytes

/-!
# Text files

What `afl/io/textfile.cpp` reads from and writes to a file with the UTF-8 character set, which changes nothing: with an
explicit character set, a byte order mark is not looked for.
-/

namespace Afl.Io.TextFile

/-- The loop of `doReadLine`: the raw line and what follows its end. A CR that is the last character is no end, but the
end of the file. -/
def rawLine : Bytes → Bytes × Option Bytes
  | [] => ([], none)
  | ch :: data =>
    if ch = 10 then ([], some data)
    else if ch = 13 then ([], if data = [] then none else some (if data.head? = some 10 then data.tail else data))
    else
      let (line, rest) := rawLine data
      (ch :: line, rest)

/-- `doReadLine`: the line and what follows. If the file ends in Ctrl-Z, that is removed. -/
def readLine (data : Bytes) : Option (Bytes × Bytes) :=
  match rawLine data with
  | (line, some rest) => some (line, rest)
  | (line, none) =>
    let line := if line.getLast? = some 26 then line.dropLast else line
    if line ≠ [] then some (line, []) else none

theorem length_rawLine (data : Bytes) : ∀ rest, (rawLine data).2 = some rest → rest.length < data.length := by
  induction data with
  | nil => exact nofun
  | cons ch data ih =>
    intro rest h
    have htail := data.length_tail
    rw [rawLine] at h
    split_ifs at h
    · cases h
      exact Nat.lt_succ_self _
    · cases h
      rw [List.length_cons]
      omega
    · cases h
      exact Nat.lt_succ_self _
    · exact Nat.lt_succ_of_lt (ih rest h)

variable {data line rest : Bytes}

theorem length_readLine (h : readLine data = some (line, rest)) :
    rest.length < data.length := by
  cases data with
  | nil => cases h
  | cons ch data =>
    have hraw := length_rawLine (ch :: data)
    rw [readLine] at h
    split at h
    · next hline =>
      cases h
      exact hraw rest (congrArg Prod.snd hline)
    · dsimp only at h
      split_ifs at h
      · cases h
        exact Nat.succ_pos _
      · cases h
        exact Nat.succ_pos _

/-- What `readLine` returns until the end of the file. -/
def lines (data : Bytes) : List Bytes :=
  match _h : readLine data with
  | some (line, rest) => line :: lines rest
  | none => []
termination_by data.length
decreasing_by exact length_readLine _h

def writeLine (text : Bytes) : Bytes := text ++ [10]

theorem rawLine_no_end (data : Bytes) : 10 ∉ (rawLine data).1 ∧ 13 ∉ (rawLine data).1 := by
  induction data with
  | nil => exact ⟨nofun, nofun⟩
  | cons ch data ih =>
    rw [rawLine]
    split_ifs with hlf hcr hend hpair
    · exact ⟨nofun, nofun⟩
    · exact ⟨nofun, nofun⟩
    · exact ⟨nofun, nofun⟩
    · exact ⟨nofun, nofun⟩
    · exact ⟨fun h => (List.mem_cons.1 h).elim (fun h => hlf h.symm) ih.1,
        fun h => (List.mem_cons.1 h).elim (fun h => hcr h.symm) ih.2⟩

theorem readLine_no_end (h : readLine data = some (line, rest)) : 10 ∉ line ∧ 13 ∉ line := by
  have hraw := rawLine_no_end data
  rw [readLine] at h
  split at h
  · next hline =>
    cases h
    rwa [hline] at hraw
  · next line hline =>
    rw [hline] at hraw
    dsimp only at h
    split_ifs at h
    · cases h
      exact ⟨fun h => hraw.1 ((List.dropLast_sublist line).mem h), fun h => hraw.2 ((List.dropLast_sublist line).mem h)⟩
    · cases h
      exact hraw

/-! ### Reading what was written -/

theorem lines_of_readLine (h : readLine data = some (line, rest)) :
    lines data = line :: lines rest := by
  rw [lines]
  split
  · next hread =>
    rw [h] at hread
    cases hread
    rfl
  · next hread =>
    rw [h] at hread
    cases hread

theorem lines_of_readLine_none {data : Bytes} (h : readLine data = none) : lines data = [] := by
  rw [lines]
  split
  · next hread =>
    rw [h] at hread
    cases hread
  · rfl

theorem lines_no_end (data : Bytes) : ∀ line ∈ lines data, 10 ∉ line ∧ 13 ∉ line := by
  induction hn : data.length using Nat.strong_induction_on generalizing data with
  | _ n ih =>
    cases hread : readLine data with
    | none =>
      rw [lines_of_readLine_none hread]
      exact nofun
    | some r =>
      obtain ⟨line, rest⟩ := r
      rw [lines_of_readLine hread, List.forall_mem_cons]
      exact ⟨readLine_no_end hread, ih rest.length (hn ▸ length_readLine hread) rest rfl⟩

theorem lines_nil : lines [] = [] := lines_of_readLine_none rfl

theorem rawLine_writeLine (text : Bytes) :
    ∃ line tail, (∀ rest, rawLine (writeLine text ++ rest) = (line, some (tail ++ rest))) ∧
      (tail = [] ∨ ∃ text', tail = writeLine text' ∧ text'.length < text.length) := by
  induction text with
  | nil => exact ⟨[], [], fun rest => rfl, .inl rfl⟩
  | cons ch text ih =>
    have hline : ∀ rest, writeLine (ch :: text) ++ rest = ch :: (writeLine text ++ rest) := fun rest => rfl
    simp only [hline, rawLine]
    split_ifs with hlf hcr
    · exact ⟨[], writeLine text, fun rest => rfl, .inr ⟨text, rfl, Nat.lt_succ_self _⟩⟩
    · have hend : ∀ rest, writeLine text ++ rest ≠ [] := fun rest h =>
        List.append_ne_nil_of_left_ne_nil (List.concat_ne_nil 10 text) rest h
      simp only [if_neg (hend _)]
      cases text with
      | nil => exact ⟨[], [], fun rest => rfl, .inl rfl⟩
      | cons c text =>
        by_cases hpair : c = 10
        · rw [hpair]
          exact ⟨[], writeLine text, fun rest => rfl, .inr ⟨text, rfl, Nat.lt_succ_of_lt (Nat.lt_succ_self _)⟩⟩
        · refine ⟨[], writeLine (c :: text), fun rest => ?_, .inr ⟨c :: text, rfl, Nat.lt_succ_self _⟩⟩
          have hhead : (writeLine (c :: text) ++ rest).head? ≠ some 10 := fun h => hpair (Option.some.inj h)
          rw [if_neg hhead]
    · obtain ⟨line, tail, hraw, htail⟩ := ih
      refine ⟨ch :: line, tail, fun rest => ?_, ?_⟩
      · rw [hraw]
      · exact htail.imp id fun ⟨text', heq, hlt⟩ => ⟨text', heq, Nat.lt_succ_of_lt hlt⟩

theorem lines_writeLine_append (text rest : Bytes) :
    lines (writeLine text ++ rest) = lines (writeLine text) ++ lines rest := by
  induction hn : text.length using Nat.strong_induction_on generalizing text with
  | _ n ih =>
    obtain ⟨line, tail, hraw, htail⟩ := rawLine_writeLine text
    have hread : ∀ rest, lines (writeLine text ++ rest) = line :: lines (tail ++ rest) := by
      intro rest
      apply lines_of_readLine
      rw [readLine, hraw]
    have hnil := hread []
    rw [List.append_nil] at hnil
    rw [hread, hnil, List.cons_append, List.append_nil]
    rcases htail with rfl | ⟨text', rfl, hlt⟩
    · rw [List.nil_append, lines_nil, List.nil_append]
    · rw [ih text'.length (hn ▸ hlt) text' rfl]

theorem lines_writeLine {text : Bytes} (hlf : 10 ∉ text) (hcr : 13 ∉ text) : lines (writeLine text) = [text] := by
  have hraw : rawLine (writeLine text) = (text, some []) := by
    induction text with
    | nil => rfl
    | cons ch text ih =>
      rw [List.mem_cons, not_or] at hlf hcr
      have hline : writeLine (ch :: text) = ch :: writeLine text := rfl
      rw [hline, rawLine, if_neg fun h => hlf.1 h.symm, if_neg fun h => hcr.1 h.symm, ih hlf.2 hcr.2]
  have hread : readLine (writeLine text) = some (text, []) := by rw [readLine, hraw]
  rw [lines_of_readLine hread, lines_nil]

def isLineEnd (ch : UInt8) : Bool := ch = 10 || ch = 13

theorem rawLine_append {line : Bytes} (h : ∀ ch ∈ line, isLineEnd ch = false) (rest : Bytes) :
    rawLine (line ++ rest) = (line ++ (rawLine rest).1, (rawLine rest).2) := by
  induction line with
  | nil => rfl
  | cons ch line ih =>
    rw [List.forall_mem_cons] at h
    have hch : ch ≠ 10 ∧ ch ≠ 13 := by simpa [isLineEnd] using h.1
    rw [List.cons_append, rawLine, if_neg hch.1, if_neg hch.2, ih h.2]
    rfl

theorem lines_of_rawLine (h : rawLine data = (line, some rest)) :
    lines data = line :: lines rest :=
  lines_of_readLine (by rw [readLine, h])

theorem lines_lineFeed {line : Bytes} (h : ∀ ch ∈ line, isLineEnd ch = false) (rest : Bytes) :
    lines (line ++ 10 :: rest) = line :: lines rest := by
  refine lines_of_rawLine ?_
  rw [rawLine_append h, rawLine, if_pos rfl, List.append_nil]

theorem lines_carriageReturn {line rest : Bytes} (h : ∀ ch ∈ line, isLineEnd ch = false) (hrest : rest ≠ []) :
    lines (line ++ 13 :: rest) = line :: lines (if rest.head? = some 10 then rest.tail else rest) := by
  refine lines_of_rawLine ?_
  rw [rawLine_append h, rawLine, if_neg (by decide), if_pos rfl, if_neg hrest, List.append_nil]

theorem firstLineEnd (text : Bytes) :
    (∀ ch ∈ text, isLineEnd ch = false) ∨
      ∃ line ch rest, text = line ++ ch :: rest ∧ isLineEnd ch = true ∧ ∀ c ∈ line, isLineEnd c = false := by
  induction text with
  | nil => exact .inl nofun
  | cons c text ih =>
    rcases hc : isLineEnd c with _ | _
    · rcases ih with hnone | ⟨line, ch, rest, rfl, hch, hline⟩
      · exact .inl (List.forall_mem_cons.2 ⟨hc, hnone⟩)
      · exact .inr ⟨c :: line, ch, rest, rfl, hch, List.forall_mem_cons.2 ⟨hc, hline⟩⟩
    · exact .inr ⟨[], c, text, rfl, hc, nofun⟩

theorem filterMap_lines_writeLine {β : Type} {f : Bytes → Option β} (hf : f [] = none) (text : Bytes) :
    (lines (writeLine text)).filterMap f = (text.splitOnP isLineEnd).filterMap f := by
  induction hn : text.length using Nat.strong_induction_on generalizing text with
  | _ n ih =>
    rcases firstLineEnd text with hnone | ⟨line, ch, rest, rfl, hch, hline⟩
    · rw [writeLine, lines_lineFeed hnone, lines_nil, List.splitOnP_eq_singleton hnone]
    · have hless : rest.length < n := by
        rw [← hn, List.length_append, List.length_cons]
        omega
      have hwrite : writeLine (line ++ ch :: rest) = line ++ ch :: writeLine rest := by
        rw [writeLine, List.append_assoc, List.cons_append]
        rfl
      have hne : writeLine rest ≠ [] := List.concat_ne_nil 10 rest
      rw [hwrite, List.splitOnP_append_cons_of_forall_mem hline ch hch, List.filterMap_cons]
      rcases Bool.or_eq_true_iff.mp hch with h10 | h13
      · rw [of_decide_eq_true h10, lines_lineFeed hline, List.filterMap_cons, ih rest.length hless rest rfl]
      · rw [of_decide_eq_true h13, lines_carriageReturn hline hne, List.filterMap_cons]
        -- a line feed after a carriage return belongs to the same line end
        cases rest with
        | nil => simp [writeLine, lines_nil, hf]
        | cons c rest =>
          by_cases hpair : c = 10
          · have htail : rest.length < n := Nat.lt_of_succ_lt hless
            have hnext : (writeLine (c :: rest)).tail = writeLine rest := rfl
            have hhead : (writeLine (c :: rest)).head? = some 10 := congrArg some hpair
            have hend : isLineEnd c = true := by simp [isLineEnd, hpair]
            rw [if_pos hhead, hnext, ih rest.length htail rest rfl,
              List.splitOnP_cons_eq_if_modifyHead, if_pos hend, List.filterMap_cons, hf]
          · have hhead : (writeLine (c :: rest)).head? ≠ some 10 := fun h => hpair (Option.some.inj h)
            rw [if_neg hhead, ih (c :: rest).length hless (c :: rest) rfl]

end Afl.Io.TextFile
