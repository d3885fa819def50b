import Afl.Net.Http.CookieJar

/-!
# The file of a cookie jar

Which cookies are the same after `saveCookies` and `loadCookies`. The fields of a line are separated by tabs, a line
that begins with `#` is a comment, and times are whole seconds from 1970 on.
-/

namespace Afl.Net.Http

open Ages Io Sys

/-! ### Fields of a line -/

theorem parseStringField_append {field : Bytes} (h : 9 ∉ field) (rest : Bytes) :
    parseStringField (field ++ 9 :: rest) = (field, rest) := by
  have hfield : ∀ c ∈ field, decide (c ≠ 9) = true := fun c hc => decide_eq_true fun heq => h (heq ▸ hc)
  rw [parseStringField, List.takeWhile_append_of_pos hfield, List.dropWhile_append_of_pos hfield,
    List.takeWhile_cons_of_neg (by decide), List.dropWhile_cons_of_neg (by decide), List.append_nil]
  rfl

theorem parseStringField_last {field : Bytes} (h : 9 ∉ field) : parseStringField field = (field, []) := by
  have hfield : ∀ c ∈ field, decide (c ≠ 9) = true := fun c hc => decide_eq_true fun heq => h (heq ▸ hc)
  rw [parseStringField, List.takeWhile_eq_self_iff.2 hfield, List.dropWhile_eq_nil_iff.2 hfield]
  rfl

theorem parseBoolField_boolText (b : Bool) (rest : Bytes) :
    parseBoolField (Cookie.boolText b ++ 9 :: rest) = some (b, rest) := by
  have hfield : 9 ∉ Cookie.boolText b := by cases b <;> decide
  rw [parseBoolField, parseStringField_append hfield]
  cases b <;> rfl

/-- Times that can be read. -/
def InRange (second : Int64) : Prop := 0 ≤ second.toInt ∧ second.toInt ≤ 0x10000000000

theorem InRange.small {second : Int64} (h : InRange second) : second.toInt.natAbs * 1000 < 2 ^ 63 := by
  rw [InRange] at h
  omega

theorem parseTimeField_decimal (second : Int64) (rest : Bytes) :
    parseTimeField (decimal second.toInt ++ 9 :: rest) =
      if second.toInt < 0 ∨ second.toInt > 0x10000000000 then none else some (Time.fromUnixTime second, rest) := by
  have hfield : 9 ∉ decimal second.toInt := fun hmem => absurd (mem_decimal hmem) (by decide)
  have hlower := second.le_toInt
  have hupper := second.toInt_lt
  have hlong : strToLong (decimal second.toInt) = some second.toInt := strToLong_decimal (by omega) (by omega)
  rw [parseTimeField, parseStringField_append hfield]
  dsimp only
  rw [hlong]
  dsimp only
  rw [Int64.ofInt_toInt]

theorem parseStringField_spec (line : Bytes) :
    9 ∉ (parseStringField line).1 ∧ (parseStringField line).1 ⊆ line ∧ (parseStringField line).2 ⊆ line := by
  refine ⟨fun h => ?_, (List.takeWhile_sublist _).subset, fun c h => ?_⟩
  · have hne := List.mem_takeWhile_imp h
    exact absurd hne (by decide)
  · exact (List.dropWhile_sublist _).subset (List.mem_of_mem_drop h)

theorem parseStringField_cells (line : Bytes) :
    (parseStringField line).1 = (line.splitOn 9).getD 0 [] ∧
      ∀ k, ((parseStringField line).2.splitOn 9).getD k [] = (line.splitOn 9).getD (k + 1) [] := by
  by_cases h : 9 ∈ line
  · obtain ⟨field, rest, rfl, hfield⟩ := List.eq_append_cons_of_mem h
    rw [parseStringField_append hfield, List.splitOn_append_cons_self_of_not_mem hfield]
    exact ⟨rfl, fun k => rfl⟩
  · rw [parseStringField_last h, List.splitOn_eq_singleton h]
    refine ⟨rfl, fun k => ?_⟩
    cases k <;> rfl

theorem cell_spec (line : Bytes) (k : Nat) :
    9 ∉ (line.splitOn 9).getD k [] ∧ (line.splitOn 9).getD k [] ⊆ line := by
  induction k generalizing line with
  | zero =>
    rw [← (parseStringField_cells line).1]
    exact ⟨(parseStringField_spec line).1, (parseStringField_spec line).2.1⟩
  | succ k ih =>
    rw [← (parseStringField_cells line).2]
    exact ⟨(ih _).1, List.Subset.trans (ih _).2 (parseStringField_spec line).2.2⟩

/-- `TRUE` or `FALSE`, in upper or lower case. -/
def IsFlag (text : Bytes) (b : Bool) : Prop := strUCase text = Cookie.boolText b

theorem parseBoolField_eq_some {line rest : Bytes} {b : Bool} :
    parseBoolField line = some (b, rest) ↔
      IsFlag ((line.splitOn 9).getD 0 []) b ∧ rest = (parseStringField line).2 := by
  have htrue : strUCase (lit "TRUE") = Cookie.boolText true := by decide
  have hfalse : strUCase (lit "FALSE") = Cookie.boolText false := by decide
  rw [parseBoolField, IsFlag, ← (parseStringField_cells line).1]
  simp only [strCaseCompare_eq_zero, htrue, hfalse]
  have hne : Cookie.boolText true ≠ Cookie.boolText false := by decide
  cases b <;> grind

/-- A time in seconds that is not obvious garbage. -/
def IsTime (text : Bytes) (t : Time) : Prop :=
  ∃ seconds, strToLong text = some seconds ∧ 0 ≤ seconds ∧ seconds ≤ 0x10000000000 ∧
    t = Time.fromUnixTime (Int64.ofInt seconds)

theorem IsTime.inRange {text : Bytes} {t : Time} (h : IsTime text t) :
    ∃ second, InRange second ∧ t = Time.fromUnixTime second := by
  obtain ⟨seconds, -, hlower, hupper, ht⟩ := h
  have hint : (Int64.ofInt seconds).toInt = seconds := Int64.toInt_ofInt_of_le (by omega) (by omega)
  refine ⟨Int64.ofInt seconds, ?_, ht⟩
  rw [InRange, hint]
  exact ⟨hlower, hupper⟩

theorem parseTimeField_eq_some {line rest : Bytes} {t : Time} :
    parseTimeField line = some (t, rest) ↔
      IsTime ((line.splitOn 9).getD 0 []) t ∧ rest = (parseStringField line).2 := by
  rw [parseTimeField, IsTime, ← (parseStringField_cells line).1]
  dsimp only
  rcases strToLong (parseStringField line).1 with _ | seconds
  · simp
  · dsimp only
    split_ifs with hbad
    · simp only [Option.some.injEq, exists_eq_left', false_iff]
      omega
    · simp only [Option.some.injEq, Prod.mk.injEq, exists_eq_left']
      grind

variable {c : Cookie} {now : Time}

variable {line : Bytes}

namespace Cookie

/-! ### Lines of a file -/

def fields (c : Cookie) : List Bytes := [c.host, c.path, c.name, c.value]

def second (c : Cookie) : Int64 := Time.getUnixTime c.expirationTime

/-- What a line means: the cookie without a number, and with whole seconds. -/
def stored (c : Cookie) : Cookie :=
  { c with sequenceNumber := 0, expirationTime := Time.fromUnixTime c.second, persistent := true }

theorem parseFromString_toString (hvalid : c.isValid = true) (htab : ∀ f ∈ c.fields, 9 ∉ f)
    (hcomment : c.host.head? ≠ some 35) (hrange : InRange c.second) : parseFromString c.toString = some c.stored := by
  have hhost : 9 ∉ c.host := htab c.host (by simp [fields])
  have hpath : 9 ∉ c.path := htab c.path (by simp [fields])
  have hname : 9 ∉ c.name := htab c.name (by simp [fields])
  have hvalue : 9 ∉ c.value := htab c.value (by simp [fields])
  have hline : c.toString = c.host ++ 9 :: (boolText c.hostDomainMatch ++ 9 :: (c.path ++ 9 :: (boolText c.secure ++
      9 :: (decimal c.second.toInt ++ 9 :: (c.name ++ 9 :: c.value))))) := by
    simp only [toString, second, List.append_assoc, List.cons_append]
  have htime : ∀ rest, parseTimeField (decimal c.second.toInt ++ 9 :: rest) =
      some (Time.fromUnixTime c.second, rest) := by
    intro rest
    rw [parseTimeField_decimal, if_neg (by have := hrange.1; have := hrange.2; omega)]
  have hstart : c.toString ≠ [] ∧ c.toString.head? ≠ some 35 := by
    rw [hline]
    cases hc : c.host with
    | nil => exact ⟨nofun, show some (9 : UInt8) ≠ some 35 by decide⟩
    | cons ch host =>
      rw [hc] at hcomment
      exact ⟨nofun, hcomment⟩
  rw [parseFromString]
  simp only [guard, if_pos hstart]
  simp only [hline, parseStringField_append hhost, parseBoolField_boolText, parseStringField_append hpath,
    htime, parseStringField_append hname, parseStringField_last hvalue, Option.pure_def,
    Option.bind_eq_bind, Option.bind_some]
  have hstored : c.stored.isValid = true := hvalid
  change ((if c.stored.isValid = true then some () else failure).bind fun _ => some c.stored) = some c.stored
  rw [if_pos hstored]
  rfl

/-! ### Rows of columns -/

def grid (field : Bytes) : List (List Bytes) := (field.splitOnP TextFile.isLineEnd).map (List.splitOn 9)

/-- The last row of the first goes on with the first row of the second. -/
def glue : List (List Bytes) → List (List Bytes) → List (List Bytes)
  | [], rows => rows
  | [row], [] => [row]
  | [row], row' :: rows => (row ++ row') :: rows
  | row :: rows, rows' => row :: glue rows rows'

/-- The rows and columns that the fields of a cookie make up in the file. Without tabs and line ends in them it is one
row of seven columns. -/
def rows (c : Cookie) : List (List Bytes) :=
  glue (grid c.host) (glue [[boolText c.hostDomainMatch]] (glue (grid c.path) (glue [[boolText c.secure]]
    (glue [[decimal c.second.toInt]] (glue (grid c.name) (grid c.value))))))

/-- The columns are those of an unexpired cookie; a column that is missing is empty. -/
structure IsRow (now : Time) (row : List Bytes) (c : Cookie) : Prop where
  sequenceNumber : c.sequenceNumber = 0
  host : row.getD 0 [] = c.host
  hostDomainMatch : IsFlag (row.getD 1 []) c.hostDomainMatch
  path : row.getD 2 [] = c.path
  secure : IsFlag (row.getD 3 []) c.secure
  expirationTime : IsTime (row.getD 4 []) c.expirationTime
  name : row.getD 5 [] = c.name
  value : row.getD 6 [] = c.value
  persistent : c.persistent = true
  comment : c.host.head? ≠ some 35
  valid : c.isValid = true
  unexpired : now < c.expirationTime

theorem glue_append {rows rows' : List (List Bytes)} (h : rows' ≠ []) (more : List (List Bytes)) :
    glue (rows ++ rows') more = rows ++ glue rows' more := by
  induction rows with
  | nil => rfl
  | cons row rows ih =>
    obtain ⟨row', rest, hrest⟩ := List.exists_cons_of_ne_nil (List.append_ne_nil_of_right_ne_nil rows h)
    rw [List.cons_append, List.cons_append, ← ih, hrest]
    rfl

theorem splitOnP_append_of_not {field : Bytes} (h : ∀ ch ∈ field, TextFile.isLineEnd ch = false) (rest : Bytes) :
    (field ++ rest).splitOnP TextFile.isLineEnd = (rest.splitOnP TextFile.isLineEnd).modifyHead (field ++ ·) := by
  induction field with
  | nil =>
    obtain ⟨line, lines, hlines⟩ := List.exists_cons_of_ne_nil (List.splitOnP_ne_nil TextFile.isLineEnd rest)
    rw [List.nil_append, hlines]
    rfl
  | cons ch field ih =>
    rw [List.forall_mem_cons] at h
    obtain ⟨line, lines, hlines⟩ := List.exists_cons_of_ne_nil (List.splitOnP_ne_nil TextFile.isLineEnd rest)
    rw [List.cons_append, List.splitOnP_cons_eq_if_modifyHead, if_neg (by simp [h.1]), ih h.2, hlines]
    rfl

theorem grid_append (field rest : Bytes) : grid (field ++ 9 :: rest) = glue (grid field) (grid rest) := by
  induction hn : field.length using Nat.strong_induction_on generalizing field with
  | _ n ih =>
    by_cases hend : ∃ ch ∈ field, TextFile.isLineEnd ch = true
    · obtain ⟨ch, hmem, hch⟩ := hend
      obtain ⟨before, after, rfl⟩ := List.append_of_mem hmem
      have hless : after.length < n := by simp [← hn]; omega
      have hne : grid after ≠ [] := by simp [grid, List.splitOnP_ne_nil]
      have hsplit : ∀ tail : Bytes, grid (before ++ ch :: tail) = grid before ++ grid tail := by
        intro tail
        rw [grid, List.splitOnP_append_cons _ _ hch, List.map_append]
        rfl
      rw [List.append_assoc, List.cons_append, hsplit, hsplit, ih after.length hless after rfl, glue_append hne]
    · have hnone : ∀ ch ∈ field, TextFile.isLineEnd ch = false := by simpa using hend
      obtain ⟨line, lines, hlines⟩ := List.exists_cons_of_ne_nil (List.splitOnP_ne_nil TextFile.isLineEnd rest)
      have htab : (9 :: rest).splitOnP TextFile.isLineEnd = (9 :: line) :: lines := by
        rw [List.splitOnP_cons_eq_if_modifyHead, if_neg (by decide), hlines]
        rfl
      rw [grid, grid, grid, splitOnP_append_of_not hnone, htab, hlines, List.splitOnP_eq_singleton hnone,
        List.modifyHead_cons, List.map_cons, List.splitOn_append_cons_self]
      rfl

theorem rows_eq (c : Cookie) : c.rows = grid c.toString := by
  have hplain : ∀ {field : Bytes}, (∀ ch ∈ field, ch ≠ 9 ∧ ch ≠ 10 ∧ ch ≠ 13) → [[field]] = grid field := by
    intro field h
    rw [grid, List.splitOnP_eq_singleton fun ch hch => by simp [TextFile.isLineEnd, (h ch hch).2], List.map_singleton,
      List.splitOn_eq_singleton fun h9 => (h 9 h9).1 rfl]
  have hbool : ∀ b, [[boolText b]] = grid (boolText b) := by
    intro b
    cases b <;> exact hplain (by simp [boolText, lit])
  have htime : [[decimal c.second.toInt]] = grid (decimal c.second.toInt) := by
    refine hplain fun ch hch => ?_
    have hdigit := mem_decimal hch
    refine ⟨?_, ?_, ?_⟩ <;> rintro rfl <;> exact absurd hdigit (by decide)
  rw [rows, hbool, hbool, htime]
  simp only [← grid_append]
  simp only [toString, second, List.append_assoc, List.cons_append]

theorem isExpired_eq_false (hpersistent : c.persistent = true) :
    c.isExpired now = false ↔ now < c.expirationTime := by
  rw [isExpired, hpersistent, Bool.true_and, decide_eq_false_iff_not, Int64.not_le]

theorem head_parseStringField :
    (parseStringField line).1.head? = some 35 ↔ line.head? = some 35 := by
  cases line with
  | nil => rfl
  | cons ch line =>
    rw [parseStringField]
    by_cases hch : ch = 9
    · rw [List.takeWhile_cons_of_neg (by rw [hch]; decide), hch]
      exact iff_of_false (by simp) (by simp)
    · rw [List.takeWhile_cons_of_pos (p := fun c => decide (c ≠ 9)) (decide_eq_true hch)]
      rfl

/-- **Reading a line**, in terms of its columns. -/
theorem parseFromString_isRow :
    parseFromString line = some c ∧ c.isExpired now = false ↔ IsRow now (line.splitOn 9) c := by
  have hfirst : ∀ l : Bytes, (parseStringField l).1 = (l.splitOn 9).getD 0 [] := fun l => (parseStringField_cells l).1
  have hrest : ∀ (l : Bytes) (k : Nat), ((parseStringField l).2.splitOn 9).getD k [] = (l.splitOn 9).getD (k + 1) [] :=
    fun l => (parseStringField_cells l).2
  rw [parseFromString]
  simp only [Option.bind_eq_bind, Option.bind_eq_some_iff, Option.pure_def, guard]
  constructor
  · rintro ⟨⟨_, hstart, ⟨domainMatch, l1⟩, hdomain, ⟨secure, l2⟩, hsecure, ⟨time, l3⟩, htime, _, hvalid, hc⟩,
      hunexpired⟩
    obtain ⟨hflag, rfl⟩ := parseBoolField_eq_some.mp hdomain
    obtain ⟨hflag', rfl⟩ := parseBoolField_eq_some.mp hsecure
    obtain ⟨hseconds, rfl⟩ := parseTimeField_eq_some.mp htime
    split_ifs at hstart hvalid with hline hisValid
    cases hc
    simp only [hrest] at hflag hflag' hseconds
    refine ⟨rfl, (hfirst line).symm, hflag, ?_, hflag', hseconds, ?_, ?_, rfl, ?_, hisValid, ?_⟩
    · simp only [hfirst, hrest]
    · simp only [hfirst, hrest]
    · simp only [hfirst, hrest]
    · exact fun hcomment => hline.2 (head_parseStringField.mp hcomment)
    · exact (isExpired_eq_false rfl).mp hunexpired
  · intro h
    have hstart : line ≠ [] ∧ line.head? ≠ some 35 := by
      refine ⟨?_, fun hcomment => h.comment ?_⟩
      · rintro rfl
        have hvalid := h.valid
        rw [isValid, ← h.host] at hvalid
        simp at hvalid
      · rw [← h.host, ← hfirst, head_parseStringField, hcomment]
    have hc : (⟨0, (line.splitOn 9).getD 0 [], c.hostDomainMatch, (line.splitOn 9).getD 2 [], c.secure,
        c.expirationTime, (line.splitOn 9).getD 5 [], (line.splitOn 9).getD 6 [], true⟩ : Cookie) = c := by
      rw [h.host, h.path, h.name, h.value]
      cases c
      simp only [← h.sequenceNumber, ← h.persistent]
    refine ⟨⟨(), if_pos hstart, ⟨c.hostDomainMatch, _⟩, parseBoolField_eq_some.mpr ⟨?_, rfl⟩, ⟨c.secure, _⟩,
      parseBoolField_eq_some.mpr ⟨?_, rfl⟩, ⟨c.expirationTime, _⟩, parseTimeField_eq_some.mpr ⟨?_, rfl⟩, (), ?_, ?_⟩,
      ?_⟩
    · simpa only [hrest] using h.hostDomainMatch
    · simpa only [hrest] using h.secure
    · simpa only [hrest] using h.expirationTime
    · simp only [hfirst, hrest, hc]
      exact if_pos h.valid
    · simp only [hfirst, hrest, hc]
    · exact (isExpired_eq_false h.persistent).mpr h.unexpired

structure Readable (c : Cookie) (line : Bytes) : Prop where
  valid : c.isValid = true
  number : c.sequenceNumber = 0
  persistent : c.persistent = true
  tab : ∀ f ∈ c.fields, 9 ∉ f
  chars : ∀ f ∈ c.fields, ∀ ch ∈ f, ch ∈ line
  comment : c.host.head? ≠ some 35
  time : ∃ second, InRange second ∧ c.expirationTime = Time.fromUnixTime second

theorem IsRow.readable (h : IsRow now (line.splitOn 9) c) :
    Readable c line := by
  have hfields : ∀ f ∈ c.fields, ∃ k, (line.splitOn 9).getD k [] = f := by
    simp only [fields, List.forall_mem_cons]
    exact ⟨⟨0, h.host⟩, ⟨2, h.path⟩, ⟨5, h.name⟩, ⟨6, h.value⟩, List.forall_mem_nil _⟩
  refine ⟨h.valid, h.sequenceNumber, h.persistent, fun f hf => ?_, fun f hf => ?_, h.comment, h.expirationTime.inRange⟩
  · obtain ⟨k, rfl⟩ := hfields f hf
    exact (cell_spec line k).1
  · obtain ⟨k, rfl⟩ := hfields f hf
    exact (cell_spec line k).2

/-! ### Cookies that are kept -/

/-- The cookies that a file should keep. -/
def isKept (c : Cookie) (now : Time) : Bool := c.isValid && c.persistent && !c.isExpired now

/-- There is a line for the cookie, and it is not expired if its time is in whole seconds. -/
structure Storable (c : Cookie) (now : Time) : Prop where
  tab : ∀ f ∈ c.fields, 9 ∉ f
  lineEnd : ∀ f ∈ c.fields, 10 ∉ f ∧ 13 ∉ f
  comment : c.host.head? ≠ some 35
  time : InRange c.second
  unexpired : now < Time.fromUnixTime c.second

/-- The fields of the cookie are those of one line, and its expiry is not moved to a later time by rounding. -/
structure Plain (c : Cookie) : Prop where
  tab : 9 ∉ c.host ∧ 9 ∉ c.path
  lineEnd : ∀ f ∈ c.fields, 10 ∉ f ∧ 13 ∉ f
  time : 0 ≤ c.expirationTime.toInt

theorem second_small (c : Cookie) : c.second.toInt.natAbs * 1000 < 2 ^ 63 := by
  have hlower := c.expirationTime.le_toInt
  have hupper := c.expirationTime.toInt_lt
  have habs : (c.expirationTime.toInt.tdiv 1000).natAbs = c.expirationTime.toInt.natAbs / 1000 := Int.natAbs_tdiv _ _
  rw [second, Time.toInt_getUnixTime]
  omega

theorem isKept_iff :
    c.isKept now = true ↔ c.isValid = true ∧ c.persistent = true ∧ c.isExpired now = false := by
  rw [isKept, Bool.and_eq_true, Bool.and_eq_true, Bool.not_eq_true', and_assoc]

theorem stored_fields (c : Cookie) : c.stored.fields = c.fields := rfl

theorem storable_of_readable (h : c.stored.Readable line)
    (hline : 10 ∉ line ∧ 13 ∉ line) (hunexpired : c.stored.isExpired now = false) : c.Storable now := by
  have htab := h.tab
  have hchars := h.chars
  rw [stored_fields] at htab hchars
  have hrange : InRange c.second := by
    obtain ⟨second, hrange, heq⟩ := h.time
    rw [Time.fromUnixTime_inj c.second_small hrange.small heq]
    exact hrange
  have hlater : now < c.stored.expirationTime := (isExpired_eq_false h.persistent).1 hunexpired
  exact ⟨htab, fun f hf => ⟨fun hlf => hline.1 (hchars f hf 10 hlf), fun hcr => hline.2 (hchars f hf 13 hcr)⟩,
    h.comment, hrange, hlater⟩

end Cookie

namespace CookieJar

/-! ### What is loaded -/

/-- The cookie that `loadCookies` adds for a line. -/
def loadedFrom (now : Time) (line : Bytes) : Option Cookie :=
  (Cookie.parseFromString line).filter fun c => !c.isExpired now

theorem loadedFrom_eq_some :
    loadedFrom now line = some c ↔ Cookie.IsRow now (line.splitOn 9) c := by
  rw [loadedFrom, Option.filter_eq_some_iff, Bool.not_eq_true', Cookie.parseFromString_isRow]

/-- The cookies that `loadCookies` adds. -/
def loaded (now : Time) (content : Bytes) : List Cookie := (TextFile.lines content).filterMap (loadedFrom now)

theorem lineEvents_eq (now : Time) (line : Bytes) : lineEvents now line = (loadedFrom now line).toList.map .add := by
  rw [lineEvents, loadedFrom]
  cases Cookie.parseFromString line with
  | none => rfl
  | some c =>
    dsimp only
    cases hexpired : c.isExpired now <;> simp [Option.filter, hexpired]

theorem loadCookies_eq_run (jar : CookieJar) (now : Time) (content : Bytes) :
    jar.loadCookies now content = jar.run ((loaded now content).map .add) := by
  have hevents : ∀ lines : List Bytes,
      lines.flatMap (lineEvents now) = (lines.filterMap (loadedFrom now)).map .add := by
    intro lines
    induction lines with
    | nil => rfl
    | cons line lines ih =>
      rw [List.flatMap_cons, ih, lineEvents_eq]
      cases hline : loadedFrom now line with
      | none => rw [List.filterMap_cons_none hline]; rfl
      | some c => rw [List.filterMap_cons_some hline]; rfl
  have hcall := call_eq_run jar (.loadCookies now content)
  rw [Call.events, hevents] at hcall
  exact hcall

def newest (cookies : List Cookie) (key : Bytes × Bytes × Bytes) : Option Cookie :=
  cookies.reverse.find? fun c => c.key = key

/-- The cookies in a jar, whatever their numbers are. -/
def contents (jar : CookieJar) : List Cookie := jar.cookies.map fun c => c.setSequenceNumber 0

theorem newest_append (cookies cookies' : List Cookie) (key : Bytes × Bytes × Bytes) :
    newest (cookies ++ cookies') key = (newest cookies' key).or (newest cookies key) := by
  rw [newest, List.reverse_append, List.find?_append]
  rfl

variable {jar : CookieJar}

theorem mem_contents_addCookie (hnodup : (jar.cookies.map Cookie.key).Nodup) (cookie c : Cookie) :
    c ∈ (jar.addCookie cookie).contents ↔
      c = cookie.setSequenceNumber 0 ∨ c.key ≠ cookie.key ∧ c ∈ jar.contents := by
  have hkey : ∀ {d : Cookie}, d.setSequenceNumber 0 = c → d.key = c.key := by
    rintro d rfl
    rfl
  rcases addCookie_cases jar cookie with ⟨before, d, after, hcookies, hd, hadd⟩ | ⟨hnew, hadd⟩
  · rw [hcookies, List.map_append, List.map_cons, List.nodup_middle, List.nodup_cons, ← List.map_append, hd] at hnodup
    rw [contents, contents, hadd, hcookies, List.map_append, List.map_append, List.map_cons, List.map_cons,
      List.mem_append, List.mem_append, List.mem_cons, List.mem_cons]
    constructor
    · rintro (hmem | rfl | hmem)
      · obtain ⟨b, hb, heq⟩ := List.mem_map.1 hmem
        refine .inr ⟨fun hc => hnodup.1 ?_, .inl hmem⟩
        rw [← hc, ← hkey heq]
        exact List.mem_map_of_mem (List.mem_append_left _ hb)
      · exact .inl rfl
      · obtain ⟨b, hb, heq⟩ := List.mem_map.1 hmem
        refine .inr ⟨fun hc => hnodup.1 ?_, .inr (.inr hmem)⟩
        rw [← hc, ← hkey heq]
        exact List.mem_map_of_mem (List.mem_append_right _ hb)
    · rintro (rfl | ⟨hne, hmem | heq | hmem⟩)
      · exact .inr (.inl rfl)
      · exact .inl hmem
      · exact absurd ((hkey heq.symm).symm.trans hd) hne
      · exact .inr (.inr hmem)
  · rw [contents, contents, hadd, List.map_append, List.mem_append, List.map_singleton, List.mem_singleton]
    constructor
    · rintro (hmem | rfl)
      · obtain ⟨b, hb, heq⟩ := List.mem_map.1 hmem
        exact .inr ⟨fun hc => hnew b hb ((hkey heq).trans hc), hmem⟩
      · exact .inl rfl
    · rintro (rfl | ⟨-, hmem⟩)
      · exact .inr rfl
      · exact .inl hmem

variable {cookies : List Cookie}

theorem mem_contents_run (hnumber : ∀ c ∈ cookies, c.sequenceNumber = 0) (c : Cookie) :
    c ∈ (new.run (cookies.map .add)).contents ↔ newest cookies c.key = some c := by
  induction cookies using List.reverseRecOn with
  | nil => exact ⟨nofun, nofun⟩
  | append_singleton cookies cookie ih =>
    have hzero : cookie.setSequenceNumber 0 = cookie := by
      have hnum := hnumber cookie (List.mem_append_right _ (List.mem_singleton_self _))
      rw [Cookie.setSequenceNumber, ← hnum]
    have hlast : newest [cookie] c.key = if cookie.key = c.key then some cookie else none := by
      rw [newest, List.reverse_singleton, List.find?_singleton]
      simp only [decide_eq_true_eq]
    rw [List.map_append, List.map_singleton, run_snoc, handle, mem_contents_addCookie (ordered _).nodup, hzero,
      ih fun c hc => hnumber c (List.mem_append_left _ hc), newest_append, hlast]
    split_ifs with hsame
    · rw [Option.some_or]
      exact ⟨fun h => h.elim (fun heq => congrArg some heq.symm) fun h => absurd hsame.symm h.1,
        fun h => .inl (Option.some.inj h).symm⟩
    · rw [Option.none_or]
      exact ⟨fun h => h.elim (fun heq => absurd (congrArg Cookie.key heq.symm) hsame) And.right,
        fun h => .inr ⟨fun heq => hsame heq.symm, h⟩⟩

variable {key : Bytes × Bytes × Bytes}

theorem newest_eq_some (h : newest cookies key = some c) : c ∈ cookies ∧ c.key = key :=
  ⟨List.mem_reverse.1 (List.mem_of_find?_eq_some h),
    of_decide_eq_true (List.find?_some (p := fun c : Cookie => c.key = key) h)⟩

theorem newest_eq_none_iff :
    newest cookies key = none ↔ ∀ c ∈ cookies, c.key ≠ key := by
  simp [newest]

theorem newest_eq_some_iff :
    newest cookies c.key = some c ↔
      ∃ before after, cookies = before ++ c :: after ∧ ∀ c' ∈ after, c'.key ≠ c.key := by
  rw [newest, List.find?_eq_some_iff_append]
  constructor
  · rintro ⟨-, after, before, hcookies, hafter⟩
    refine ⟨before.reverse, after.reverse, ?_, fun c' hc' => ?_⟩
    · rw [← List.reverse_reverse cookies, hcookies]
      simp
    · simpa using hafter c' (List.mem_reverse.1 hc')
  · rintro ⟨before, after, rfl, hafter⟩
    exact ⟨decide_eq_true rfl, after.reverse, before.reverse, by simp, fun c' hc' => by
      simpa using hafter c' (List.mem_reverse.1 hc')⟩

theorem newest_ne_none (h : c ∈ cookies) : ∃ d, newest cookies c.key = some d := by
  rw [← Option.isSome_iff_exists, newest, List.find?_isSome]
  exact ⟨c, List.mem_reverse.2 h, decide_eq_true rfl⟩

theorem newest_flatMap {f : Cookie → List Cookie} {r : Cookie} (h : newest (cookies.flatMap f) key = some r) :
    ∃ before d after, cookies = before ++ d :: after ∧ newest (f d) key = some r ∧
      newest (after.flatMap f) key = none := by
  induction cookies with
  | nil => cases h
  | cons d cookies ih =>
    rw [List.flatMap_cons, newest_append] at h
    cases hrest : newest (cookies.flatMap f) key with
    | none =>
      rw [hrest, Option.none_or] at h
      exact ⟨[], d, cookies, rfl, h, hrest⟩
    | some r' =>
      rw [hrest, Option.some_or] at h
      obtain ⟨before, d', after, rfl, hd', hafter⟩ := ih (hrest.trans h)
      exact ⟨d :: before, d', after, rfl, hd', hafter⟩

theorem newest_of_split {f : Cookie → List Cookie} {before after : List Cookie} {d r : Cookie}
    (hd : newest (f d) key = some r) (hafter : newest (after.flatMap f) key = none) :
    newest ((before ++ d :: after).flatMap f) key = some r := by
  rw [List.flatMap_append, List.flatMap_cons, newest_append, newest_append, hafter, Option.none_or, hd, Option.some_or]

/-! ### Saving and loading -/

/-- The cookies that are read from the lines of a cookie. -/
def readFor (now : Time) (c : Cookie) : List Cookie := loaded now (TextFile.writeLine c.toString)

theorem loaded_saveCookies (jar : CookieJar) (now : Time) :
    loaded now jar.saveCookies = (jar.cookies.filter Cookie.persistent).flatMap (readFor now) := by
  rw [saveCookies]
  induction jar.cookies.filter Cookie.persistent with
  | nil =>
    rw [List.flatMap_nil, loaded, TextFile.lines_nil]
    rfl
  | cons c cookies ih =>
    rw [List.flatMap_cons, List.flatMap_cons, ← ih, loaded, TextFile.lines_writeLine_append, List.filterMap_append]
    rfl

theorem mem_loaded {content : Bytes} (h : c ∈ loaded now content) :
    c.isExpired now = false ∧ ∃ line, c.Readable line ∧ 10 ∉ line ∧ 13 ∉ line := by
  obtain ⟨line, hline, hread⟩ := List.mem_filterMap.1 h
  have hrow := loadedFrom_eq_some.1 hread
  exact ⟨(Cookie.isExpired_eq_false hrow.persistent).2 hrow.unexpired, line, hrow.readable,
    TextFile.lines_no_end content line hline⟩

theorem mem_toString {ch : UInt8} (h : ch ∈ c.toString) (hch : ch ≠ 9) :
    (∃ f ∈ c.fields, ch ∈ f) ∨ ch ∈ Cookie.boolText c.hostDomainMatch ∨ ch ∈ Cookie.boolText c.secure ∨
      ch ∈ decimal c.second.toInt := by
  simp only [Cookie.toString, List.mem_append, List.mem_cons, hch, false_or] at h
  simp only [Cookie.fields, List.exists_mem_cons_iff, Cookie.second]
  tauto

theorem not_mem_boolText {ch : UInt8} (hch : ch = 10 ∨ ch = 13) (b : Bool) : ch ∉ Cookie.boolText b := by
  rcases hch with rfl | rfl <;> cases b <;> decide

theorem not_mem_toString (h : ∀ f ∈ c.fields, 10 ∉ f ∧ 13 ∉ f) {ch : UInt8} (hch : ch = 10 ∨ ch = 13) :
    ch ∉ c.toString := by
  intro hmem
  have htab : ch ≠ 9 := by rcases hch with rfl | rfl <;> decide
  rcases mem_toString hmem htab with ⟨f, hf, hmem⟩ | hmem | hmem | hmem
  · have hend := h f hf
    rcases hch with rfl | rfl
    · exact hend.1 hmem
    · exact hend.2 hmem
  · exact not_mem_boolText hch _ hmem
  · exact not_mem_boolText hch _ hmem
  · have hdigit := mem_decimal hmem
    rcases hch with rfl | rfl
    · exact absurd hdigit (by decide)
    · exact absurd hdigit (by decide)

theorem readFor_of_lineEnd (h : ∀ f ∈ c.fields, 10 ∉ f ∧ 13 ∉ f) (now : Time) :
    readFor now c = (loadedFrom now c.toString).toList := by
  rw [readFor, loaded, TextFile.lines_writeLine (not_mem_toString h (.inl rfl)) (not_mem_toString h (.inr rfl))]
  cases hread : loadedFrom now c.toString with
  | none => rw [List.filterMap_cons_none hread]; rfl
  | some r => rw [List.filterMap_cons_some hread]; rfl

theorem readFor_storable (hvalid : c.isValid = true) (h : c.Storable now) :
    readFor now c = [c.stored] := by
  have hunexpired : c.stored.isExpired now = false := (Cookie.isExpired_eq_false rfl).2 h.unexpired
  have hparse : Cookie.parseFromString c.toString = some c.stored :=
    Cookie.parseFromString_toString hvalid h.tab h.comment h.time
  have hread : loadedFrom now c.toString = some c.stored := by
    rw [loadedFrom, hparse, Option.filter_some, hunexpired]
    rfl
  rw [readFor_of_lineEnd h.lineEnd, hread]
  rfl

/-- Loading what was saved restores the cookies that should be kept, and no others. -/
def Restored (jar : CookieJar) (now : Time) : Prop :=
  ∀ c, c ∈ (new.loadCookies now jar.saveCookies).contents ↔ ∃ d ∈ jar.cookies, d.isKept now = true ∧ c = d.stored

/-- The columns of a row are those of an unexpired cookie, and no row below has those of one with the same key. -/
def LastRow (now : Time) (row : List Bytes) (below : List (List Bytes)) (r : Cookie) : Prop :=
  Cookie.IsRow now row r ∧ ∀ row' ∈ below, ∀ r', Cookie.IsRow now row' r' → r'.key ≠ r.key

/-- The rows of an expired or invalid cookie do not matter: no row has the columns of an unexpired cookie, unless such
a row below replaces it, or it repeats a cookie above that should be kept. -/
def NoStray (jar : CookieJar) (now : Time) : Prop :=
  ∀ before d after, jar.cookies.filter Cookie.persistent = before ++ d :: after → d.isKept now = false →
    ∀ above row below, d.rows = above ++ row :: below →
      ∀ r, LastRow now row (below ++ after.flatMap Cookie.rows) r → ∃ c ∈ before, c.isKept now = true ∧ r = c.stored

theorem readFor_eq (now : Time) (c : Cookie) :
    readFor now c = (c.toString.splitOnP TextFile.isLineEnd).filterMap (loadedFrom now) :=
  TextFile.filterMap_lines_writeLine rfl c.toString

theorem mem_readFor {c r : Cookie} : r ∈ readFor now c ↔ ∃ row ∈ c.rows, Cookie.IsRow now row r := by
  simp only [readFor_eq, Cookie.rows_eq, Cookie.grid, List.mem_filterMap, loadedFrom_eq_some, List.mem_map,
    exists_exists_and_eq_and]

theorem newest_readFor_iff {c r : Cookie} :
    newest (readFor now c) r.key = some r ↔
      ∃ above row below, c.rows = above ++ row :: below ∧ LastRow now row below r := by
  rw [newest_eq_some_iff, readFor_eq, Cookie.rows_eq, Cookie.grid]
  constructor
  · rintro ⟨before, after, hread, hafter⟩
    obtain ⟨lines, rest, hlines, -, hrest⟩ := List.filterMap_eq_append_iff.1 hread
    obtain ⟨skipped, line, below, rfl, -, hline, rfl⟩ := List.filterMap_eq_cons_iff.1 hrest
    refine ⟨(lines ++ skipped).map (List.splitOn 9), line.splitOn 9, below.map (List.splitOn 9), ?_,
      loadedFrom_eq_some.1 hline, fun row' hrow' r' hr' => ?_⟩
    · rw [hlines, ← List.append_assoc, List.map_append, List.map_cons]
    · obtain ⟨line', hline', rfl⟩ := List.mem_map.1 hrow'
      exact hafter r' (List.mem_filterMap.2 ⟨line', hline', loadedFrom_eq_some.2 hr'⟩)
  · rintro ⟨above, row, below, hrows, hrow, hbelow⟩
    obtain ⟨lines, rest, hlines, -, hrest⟩ := List.map_eq_append_iff.1 hrows
    obtain ⟨line, lines', rfl, rfl, rfl⟩ := List.map_eq_cons_iff.1 hrest
    refine ⟨lines.filterMap (loadedFrom now), lines'.filterMap (loadedFrom now), ?_, fun r' hr' => ?_⟩
    · rw [hlines, List.filterMap_append, List.filterMap_cons_some (loadedFrom_eq_some.2 hrow)]
    · obtain ⟨line', hline', hread⟩ := List.mem_filterMap.1 hr'
      exact hbelow _ (List.mem_map_of_mem hline') r' (loadedFrom_eq_some.1 hread)

theorem newest_readAll_iff :
    newest (cookies.flatMap (readFor now)) key = none ↔
      ∀ row ∈ cookies.flatMap Cookie.rows, ∀ r, Cookie.IsRow now row r → r.key ≠ key := by
  simp only [newest_eq_none_iff, List.mem_flatMap, mem_readFor]
  constructor
  · rintro h row ⟨c, hc, hrow⟩ r hr
    exact h r ⟨c, hc, row, hrow, hr⟩
  · rintro h r ⟨c, hc, row, hrow, hr⟩
    exact h row ⟨c, hc, hrow⟩ r hr

theorem lastRow_append {row : List Bytes} {below later : List (List Bytes)} {r : Cookie} :
    LastRow now row (below ++ later) r ↔
      LastRow now row below r ∧ ∀ row' ∈ later, ∀ r', Cookie.IsRow now row' r' → r'.key ≠ r.key := by
  rw [LastRow, LastRow, List.forall_mem_append, and_assoc]

theorem restored_iff_newest (jar : CookieJar) (now : Time) :
    Restored jar now ↔ ∀ c, newest ((jar.cookies.filter Cookie.persistent).flatMap (readFor now)) c.key = some c ↔
      ∃ d ∈ jar.cookies, d.isKept now = true ∧ c = d.stored := by
  have hnumber : ∀ c ∈ loaded now jar.saveCookies, c.sequenceNumber = 0 := by
    intro c hc
    obtain ⟨-, line, hread, -⟩ := mem_loaded hc
    exact hread.number
  refine forall_congr' fun c => ?_
  rw [loadCookies_eq_run, mem_contents_run hnumber, loaded_saveCookies]

theorem storable_of_restored (h : Restored jar now) (hc : c ∈ jar.cookies)
    (hkept : c.isKept now = true) : c.Storable now := by
  have hnewest := ((restored_iff_newest jar now).1 h c.stored).2 ⟨c, hc, hkept, rfl⟩
  have hmem := (newest_eq_some hnewest).1
  rw [← loaded_saveCookies] at hmem
  obtain ⟨hunexpired, line, hread, hend⟩ := mem_loaded hmem
  exact Cookie.storable_of_readable hread hend hunexpired

theorem restored_iff (hnodup : (jar.cookies.map Cookie.key).Nodup) (now : Time) :
    Restored jar now ↔ (∀ c ∈ jar.cookies, c.isKept now = true → c.Storable now) ∧ NoStray jar now := by
  constructor
  · refine fun h => ⟨fun c hc hkept => storable_of_restored h hc hkept, ?_⟩
    intro before d after hsplit hd above row below hrows r hlast
    obtain ⟨hlast, hlater⟩ := lastRow_append.1 hlast
    have hnewest : newest ((jar.cookies.filter Cookie.persistent).flatMap (readFor now)) r.key = some r := by
      rw [hsplit]
      exact newest_of_split (newest_readFor_iff.2 ⟨above, row, below, hrows, hlast⟩) (newest_readAll_iff.2 hlater)
    obtain ⟨c, hc, hkept, rfl⟩ := ((restored_iff_newest jar now).1 h r).1 hnewest
    obtain ⟨hvalid, hpersistent, -⟩ := Cookie.isKept_iff.1 hkept
    have hmem : c ∈ before ++ d :: after := hsplit ▸ List.mem_filter.2 ⟨hc, hpersistent⟩
    rcases List.mem_append.1 hmem with hbefore | hmem
    · exact ⟨c, hbefore, hkept, rfl⟩
    · -- a cookie to be kept below the row would be read from a row of its own
      rcases List.mem_cons.1 hmem with rfl | hafter
      · exact absurd (hkept.symm.trans hd) (by decide)
      · have hread := readFor_storable hvalid (storable_of_restored h hc hkept)
        obtain ⟨row', hrow', hr'⟩ := mem_readFor.1 (hread ▸ List.mem_singleton_self c.stored)
        exact absurd rfl (hlater row' (List.mem_flatMap_of_mem hafter hrow') _ hr')
  · rintro ⟨hstorable, hstray⟩
    have hread : ∀ c ∈ jar.cookies, c.isKept now = true → readFor now c = [c.stored] := fun c hc hkept =>
      readFor_storable (Cookie.isKept_iff.1 hkept).1 (hstorable c hc hkept)
    -- every cookie that is left is one that should be kept
    have hsound : ∀ {r : Cookie}, newest ((jar.cookies.filter Cookie.persistent).flatMap (readFor now)) r.key = some r →
        ∃ d ∈ jar.cookies, d.isKept now = true ∧ r = d.stored := by
      intro r hr
      obtain ⟨before, d, after, hsplit, hd, hafter⟩ := newest_flatMap hr
      have hmem : d ∈ jar.cookies := by
        have hfilter : d ∈ jar.cookies.filter Cookie.persistent := by
          rw [hsplit]
          exact List.mem_append_right _ List.mem_cons_self
        exact (List.mem_filter.1 hfilter).1
      cases hkept : d.isKept now with
      | false =>
        obtain ⟨above, row, below, hrows, hlast⟩ := newest_readFor_iff.1 hd
        obtain ⟨c, hc, hkept, hr⟩ := hstray before d after hsplit hkept above row below hrows r
          (lastRow_append.2 ⟨hlast, newest_readAll_iff.1 hafter⟩)
        have hfilter : c ∈ jar.cookies.filter Cookie.persistent := hsplit ▸ List.mem_append_left _ hc
        exact ⟨c, (List.mem_filter.1 hfilter).1, hkept, hr⟩
      | true =>
        rw [hread d hmem hkept] at hd
        exact ⟨d, hmem, hkept, List.mem_singleton.1 (newest_eq_some hd).1⟩
    refine (restored_iff_newest jar now).2 fun c => ⟨hsound, ?_⟩
    rintro ⟨d, hd, hkept, rfl⟩
    have hmem : d.stored ∈ (jar.cookies.filter Cookie.persistent).flatMap (readFor now) := by
      refine List.mem_flatMap.2 ⟨d, List.mem_filter.2 ⟨hd, (Cookie.isKept_iff.1 hkept).2.1⟩, ?_⟩
      rw [hread d hd hkept]
      exact List.mem_singleton_self _
    obtain ⟨r, hr⟩ := newest_ne_none hmem
    have hkey := (newest_eq_some hr).2
    rw [← hkey] at hr
    obtain ⟨e, he, -, rfl⟩ := hsound hr
    have hsame : e = d := List.inj_on_of_nodup_map hnodup he hd hkey
    rw [hsame] at hr
    exact hr

theorem rows_plain (h : c.Plain) :
    c.rows = [[c.host, Cookie.boolText c.hostDomainMatch, c.path, Cookie.boolText c.secure, decimal c.second.toInt] ++
      (c.name.splitOn 9 ++ c.value.splitOn 9)] := by
  have hgrid : ∀ f ∈ c.fields, Cookie.grid f = [f.splitOn 9] := by
    intro f hf
    have hnone : ∀ ch ∈ f, TextFile.isLineEnd ch = false := by
      intro ch hch
      have hlf : ch ≠ 10 := fun heq => (h.lineEnd f hf).1 (heq ▸ hch)
      have hcr : ch ≠ 13 := fun heq => (h.lineEnd f hf).2 (heq ▸ hch)
      simp [TextFile.isLineEnd, hlf, hcr]
    rw [Cookie.grid, List.splitOnP_eq_singleton hnone, List.map_singleton]
  rw [Cookie.rows, hgrid c.host (by simp [Cookie.fields]), hgrid c.path (by simp [Cookie.fields]),
    hgrid c.name (by simp [Cookie.fields]), hgrid c.value (by simp [Cookie.fields]),
    List.splitOn_eq_singleton h.tab.1, List.splitOn_eq_singleton h.tab.2]
  rfl

/-- Nothing is read from a cookie that should not be kept if it is plain. -/
theorem not_isRow_of_plain {c r : Cookie} (h : c.Plain) (hpersistent : c.persistent = true)
    (hkept : c.isKept now = false) {row : List Bytes} (hrow : row ∈ c.rows) : ¬Cookie.IsRow now row r := by
  rw [rows_plain h, List.mem_singleton] at hrow
  subst hrow
  intro hr
  have hhost : c.host = r.host := hr.host
  have hpath : c.path = r.path := hr.path
  have hname : c.name ≠ [] := by
    intro hempty
    have hfield : [] = r.name := by
      rw [← hr.name, hempty]
      rfl
    have hvalid := hr.valid
    rw [Cookie.isValid, ← hfield] at hvalid
    simp at hvalid
  have hvalid : c.isValid = true := by
    have hvalid := hr.valid
    rw [Cookie.isValid, ← hhost, ← hpath] at hvalid
    rw [Cookie.isValid]
    simp_all
  obtain ⟨seconds, htext, -, -, htime⟩ : IsTime (decimal c.second.toInt) r.expirationTime := hr.expirationTime
  have hrange := c.second.le_toInt
  have hrange' := c.second.toInt_lt
  rw [strToLong_decimal (by omega) (by omega), Option.some.injEq] at htext
  rw [← htext, Int64.ofInt_toInt] at htime
  -- a time that is not negative is rounded to an earlier one
  have hround : r.expirationTime.toInt ≤ c.expirationTime.toInt := by
    rw [htime, Time.toInt_fromUnixTime c.second_small, Cookie.second, Time.toInt_getUnixTime,
      Int.tdiv_eq_ediv_of_nonneg h.time]
    omega
  have hlater : now < c.expirationTime :=
    Int64.lt_iff_toInt_lt.2 (lt_of_lt_of_le (Int64.lt_iff_toInt_lt.1 hr.unexpired) hround)
  have hunexpired : c.isExpired now = false := (Cookie.isExpired_eq_false hpersistent).2 hlater
  exact absurd (hkept.symm.trans (Cookie.isKept_iff.2 ⟨hvalid, hpersistent, hunexpired⟩)) (by decide)

theorem noStray_of_plain
    (h : ∀ d ∈ jar.cookies, d.persistent = true → d.isKept now = false → d.Plain) : NoStray jar now := by
  intro before d after hsplit hd above row below hrows r hlast
  have hfilter : d ∈ jar.cookies.filter Cookie.persistent := hsplit ▸ List.mem_append_right _ List.mem_cons_self
  obtain ⟨hmem, hpersistent⟩ := List.mem_filter.1 hfilter
  have hrow : row ∈ d.rows := hrows ▸ List.mem_append_right _ List.mem_cons_self
  exact absurd hlast.1 (not_isRow_of_plain (h d hmem hpersistent hd) hpersistent hd hrow)

/-- Which cookies that servers have set are the same after saving and loading. -/
theorem saveCookies_restored_iff (responses : List Response) (now : Time) :
    let jar := (responses.map Response.call).foldl call new
    Restored jar now ↔ (∀ c ∈ jar.cookies, c.isKept now = true → c.Storable now) ∧ NoStray jar now := by
  dsimp only
  rw [calls_eq_run]
  exact restored_iff (ordered _).nodup now

/-- A URL and a field, as an example: the value contains a tab. -/
def tabUrl : Url := ⟨lit "http", [], [], lit "h", [], lit "/", []⟩

def tabField : HeaderField := ⟨lit "a", lit "b\tc; max-age=60"⟩

def tabCookie : Cookie := ⟨0, lit "h", false, lit "/", false, 60000, lit "a", lit "b\tc", true⟩

theorem new_tabField : Cookie.new tabUrl 0 tabField = tabCookie := by
  have hvalues : tabField.enumerateSecondaryValues Cookie.options = [⟨lit "max-age", lit "60"⟩] := by
    rw [HeaderField.enumerateSecondaryValues, show (if Cookie.options.noPrimary = true then tabField.value else
      (extractPart Cookie.options .raw tabField.value).2) = lit " max-age=60" from by decide, parts_cons (by decide),
      show (extractPart Cookie.options .raw (lit " max-age=60")).2 = [] from by decide, parts_nil]
    decide
  rw [Cookie.new, hvalues]
  decide

theorem saveCookies_cuts_value : ¬Restored (new.addCookies tabUrl 0 [tabField]) 0 := by
  intro h
  have hjar : new.addCookies tabUrl 0 [tabField] = new.addCookie tabCookie := by
    rw [addCookies, List.foldl_cons, List.foldl_nil, handleHeader, new_tabField]
    rfl
  rw [hjar] at h
  have hmem : tabCookie.setSequenceNumber 1 ∈ (new.addCookie tabCookie).cookies := by decide
  have hstorable := storable_of_restored h hmem (by decide)
  exact hstorable.tab (lit "b\tc") (by decide) (by decide)

end CookieJar

end Afl.Net.Http
