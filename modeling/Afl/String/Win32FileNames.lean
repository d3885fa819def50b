import Afl.String.FileNames

/-!
# Windows file names

The canonical path names of `afl/string/win32filenames.cpp`.
-/

namespace Afl.Win32FileNames

open FileNames Paths

def pathSeparator : UInt8 := 92

def flipSlashes (name : Bytes) : Bytes := name.map fun c => if c = 47 then pathSeparator else c

def isPathSeparator (c : UInt8) : Bool := c = 92 || c = 58 || c = 47

/-- Whether `getCanonicalPathName` finds a drive letter: it looks for a colon in the second place. -/
def hasDrive (name : Bytes) : Bool := name[1]? = some 58

def getCanonicalPathName (name : Bytes) : Bytes :=
  let name := flipSlashes name
  if hasDrive name then name.take 2 ++ canonicalName pathSeparator (name.drop 2)
  else canonicalName pathSeparator name

def driveless (name : Bytes) : Bytes := if hasDrive name then name.drop 2 else name

/-- Whether the path name starts at a root: of its drive, or of the current one. -/
def isRooted (name : Bytes) : Bool :=
  match (driveless name).head? with
  | some c => c = 92 || c = 47
  | none => false

/-- Where a path name leads on its drive. -/
def location (name : Bytes) : Location (FileName pathSeparator) :=
  FileNames.location pathSeparator (driveless (flipSlashes name))

/-- A relative path that does not go up and whose first remaining component has a colon in the second place, or a rooted
path whose first remaining component begins with a colon. -/
def MovesColon (l : Location (FileName pathSeparator)) : Prop :=
  match l.names with
  | [] => False
  | n :: _ => if l.rooted then n.1.head? = some 58 else l.ups = 0 ∧ n.1[1]? = some 58

/-- The canonical path name of a path is canonical itself, and of the same kind as the path. -/
def KeepsKind (name : Bytes) : Prop :=
  getCanonicalPathName (getCanonicalPathName name) = getCanonicalPathName name ∧
    hasDrive (getCanonicalPathName name) = hasDrive name ∧ isRooted (getCanonicalPathName name) = isRooted name

/-! ### Slashes -/

/-- What `flipSlashes` does to a character. -/
def flip (c : UInt8) : UInt8 := if c = 47 then pathSeparator else c

theorem flip_eq_colon (c : UInt8) : flip c = 58 ↔ c = 58 := by
  rw [flip]
  split_ifs with hc
  · rw [hc]
    decide
  · rfl

theorem flip_eq_pathSeparator (c : UInt8) : flip c = pathSeparator ↔ c = 92 ∨ c = 47 := by
  rw [flip]
  split_ifs with hc
  · exact iff_of_true rfl (.inr hc)
  · rw [or_iff_left hc]
    rfl

theorem flip_ne_slash (c : UInt8) : flip c ≠ 47 := by
  rw [flip]
  split_ifs with hc
  · decide
  · exact hc

@[simp] theorem hasDrive_flipSlashes (name : Bytes) : hasDrive (flipSlashes name) = hasDrive name := by
  rw [hasDrive, hasDrive, flipSlashes, List.getElem?_map, decide_eq_decide]
  rcases name[1]? with _ | c
  · rfl
  · rw [Option.map_some, Option.some.injEq, Option.some.injEq]
    exact flip_eq_colon c

theorem not_mem_flipSlashes (name : Bytes) : (47 : UInt8) ∉ flipSlashes name := by
  intro hmem
  obtain ⟨c, -, hc⟩ := List.mem_map.1 hmem
  exact flip_ne_slash c hc

variable {name : Bytes}

theorem flipSlashes_eq_self (h : (47 : UInt8) ∉ name) : flipSlashes name = name := by
  induction name with
  | nil => rfl
  | cons c name ih =>
    have hc : ¬c = 47 := fun heq => h (heq ▸ List.mem_cons_self)
    have hrest := ih fun hmem => h (List.mem_cons_of_mem c hmem)
    rw [flipSlashes] at hrest ⊢
    rw [List.map_cons, if_neg hc, hrest]

theorem driveless_flipSlashes (name : Bytes) : driveless (flipSlashes name) = flipSlashes (driveless name) := by
  rw [driveless, driveless, hasDrive_flipSlashes, flipSlashes, flipSlashes]
  split_ifs
  · rw [List.map_drop]
  · rfl

theorem isRooted_eq (name : Bytes) : isRooted name = (location name).rooted := by
  rw [isRooted, location, FileNames.location, Location.rooted_follow, driveless_flipSlashes, flipSlashes, List.head?_map]
  rcases (driveless name).head? with _ | c
  · rfl
  · have hc : (some (flip c) = some pathSeparator) ↔ c = 92 ∨ c = 47 := by
      rw [Option.some.injEq]
      exact flip_eq_pathSeparator c
    show (decide (c = 92) || decide (c = 47)) = decide (some (flip c) = some pathSeparator)
    rw [decide_eq_decide.2 hc, Bool.decide_or]

/-! ### The second character -/

theorem pathSeparator_ne_dot : pathSeparator ≠ 46 := by decide

theorem second_names (n : FileName pathSeparator) (names : List (FileName pathSeparator)) :
    ([pathSeparator].intercalate ((n :: names).map (·.1)))[1]? = some 58 ↔ n.1[1]? = some 58 := by
  obtain ⟨component, hname⟩ := n
  rcases component with _ | ⟨c, _ | ⟨d, component⟩⟩
  · exact absurd rfl hname.2.1
  · have hseparator : some pathSeparator ≠ some 58 := by decide
    rcases names with _ | ⟨m, names⟩
    · exact Iff.rfl
    · rw [List.map_cons, List.map_cons, List.intercalate_cons_cons]
      exact iff_of_false hseparator nofun
  · rcases names with _ | ⟨m, names⟩
    · exact Iff.rfl
    · rw [List.map_cons, List.map_cons, List.intercalate_cons_cons]
      exact Iff.rfl

theorem hasDrive_text (l : Location (FileName pathSeparator)) : hasDrive (text pathSeparator l) = true ↔ MovesColon l := by
  have hspelled := spelled_text l
  rw [hasDrive, decide_eq_true_iff]
  generalize text pathSeparator l = t at hspelled
  rcases hspelled with ⟨hrooted⟩ | ⟨n, hrooted, hups⟩ | ⟨hrooted, hups, hnames⟩ | ⟨hrooted, hups, hnames⟩
  · rw [MovesColon]
    rcases hnames : l.names with _ | ⟨n, names⟩
    · exact iff_of_false nofun id
    · obtain ⟨c, rest, htext, -, hhead⟩ := head_names n names
      rw [htext]
      dsimp only
      rw [if_pos hrooted, hhead]
      rfl
  · have hdots : ((List.replicate (n + 1) (lit ".." ++ [pathSeparator])).flatten ++
        [pathSeparator].intercalate (l.names.map (·.1)))[1]? = some 46 := by
      rw [List.replicate_succ, List.flatten_cons]
      rfl
    rw [hdots, MovesColon]
    refine iff_of_false (by decide) ?_
    rcases l.names with _ | ⟨m, names⟩
    · exact id
    · dsimp only
      rw [if_neg (by rw [hrooted]; decide), hups]
      exact fun h => absurd h.1 (Nat.succ_ne_zero n)
  · obtain ⟨n, names, hcons⟩ := List.exists_cons_of_ne_nil hnames
    rw [MovesColon, hcons, second_names]
    dsimp only
    rw [if_neg (by rw [hrooted]; decide), and_iff_right hups]
  · rw [MovesColon, hnames]
    exact iff_of_false (by decide) id

/-! ### Canonical names -/

theorem not_mem_canonicalName (h : (47 : UInt8) ∉ name) : (47 : UInt8) ∉ canonicalName pathSeparator name := by
  intro hmem
  rcases mem_canonicalName hmem with hmem | heq | heq
  · exact h hmem
  · exact absurd heq (by decide)
  · exact absurd heq (by decide)

theorem getCanonicalPathName_drive (h : hasDrive name = true) :
    getCanonicalPathName name = (flipSlashes name).take 2 ++ text pathSeparator (location name) := by
  rw [getCanonicalPathName, hasDrive_flipSlashes, if_pos h, canonicalName_eq, location, driveless, hasDrive_flipSlashes, if_pos h]

theorem getCanonicalPathName_plain (h : hasDrive name = false) :
    getCanonicalPathName name = text pathSeparator (location name) := by
  have hnone : ¬hasDrive name = true := by
    rw [h]
    decide
  rw [getCanonicalPathName, hasDrive_flipSlashes, if_neg hnone, canonicalName_eq, location, driveless, hasDrive_flipSlashes, if_neg hnone]

theorem keepsKind_of_location (hdrive : hasDrive (getCanonicalPathName name) = hasDrive name)
    (hletter : hasDrive name = true → (flipSlashes (getCanonicalPathName name)).take 2 = (flipSlashes name).take 2)
    (hlocation : location (getCanonicalPathName name) = location name) : KeepsKind name := by
  refine ⟨?_, hdrive, by rw [isRooted_eq, isRooted_eq, hlocation]⟩
  rcases h : hasDrive name with _ | _
  · rw [getCanonicalPathName_plain (hdrive.trans h), hlocation, ← getCanonicalPathName_plain h]
  · rw [getCanonicalPathName_drive (hdrive.trans h), hlocation, hletter h, ← getCanonicalPathName_drive h]

theorem location_text_plain (hdrive : hasDrive (text pathSeparator (location name)) = false) :
    location (text pathSeparator (location name)) = location name := by
  have hslash : (47 : UInt8) ∉ text pathSeparator (location name) := by
    rw [location, ← canonicalName_eq]
    apply not_mem_canonicalName
    rw [driveless_flipSlashes]
    exact not_mem_flipSlashes _
  have hnone : ¬hasDrive (text pathSeparator (location name)) = true := by
    rw [hdrive]
    decide
  rw [location, flipSlashes_eq_self hslash, driveless, if_neg hnone]
  exact location_text pathSeparator_ne_dot _

theorem hasDrive_eq_true_iff (name : Bytes) : hasDrive name = true ↔ name[1]? = some 58 := decide_eq_true_iff

theorem drive_cases (h : hasDrive name = true) : ∃ c rest, name = c :: 58 :: rest := by
  rw [hasDrive_eq_true_iff] at h
  rcases name with _ | ⟨c, _ | ⟨d, rest⟩⟩
  · exact absurd h nofun
  · exact absurd h nofun
  · exact ⟨c, rest, by rw [Option.some.inj h]⟩

/-- **A path on a drive** stays there. -/
theorem keepsKind_drive (h : hasDrive name = true) : KeepsKind name := by
  have hcanonical := getCanonicalPathName_drive h
  obtain ⟨c, rest, hname⟩ := drive_cases ((hasDrive_flipSlashes name).trans h)
  have hslash := not_mem_flipSlashes name
  have hlocation : location name = FileNames.location pathSeparator rest := by
    rw [location, driveless, hasDrive_flipSlashes, if_pos h, hname]
    rfl
  rw [hname] at hcanonical hslash
  have hrest : (47 : UInt8) ∉ rest := fun hmem => hslash (List.mem_cons_of_mem c (List.mem_cons_of_mem 58 hmem))
  have htext : (47 : UInt8) ∉ text pathSeparator (location name) := by
    rw [hlocation, ← canonicalName_eq]
    exact not_mem_canonicalName hrest
  have hflip : flipSlashes (getCanonicalPathName name) = c :: 58 :: text pathSeparator (location name) := by
    rw [hcanonical]
    apply flipSlashes_eq_self
    intro hmem
    rcases List.mem_append.1 hmem with hmem | hmem
    · exact hslash (List.mem_of_mem_take hmem)
    · exact htext hmem
  apply keepsKind_of_location
  · rw [h, hcanonical]
    rfl
  · intro _
    rw [hflip, hname]
    rfl
  · rw [location, driveless, hflip]
    exact location_text pathSeparator_ne_dot _

/-- **A canonical path name is of the same kind** as the path, and canonical itself, exactly if the path has a drive or no
colon comes to the second place. -/
theorem keepsKind_iff (name : Bytes) : KeepsKind name ↔ hasDrive name = true ∨ ¬MovesColon (location name) := by
  rcases h : hasDrive name with _ | _
  · have hcanonical := getCanonicalPathName_plain h
    rw [← hasDrive_text, ← hcanonical, or_iff_right Bool.false_ne_true, Bool.not_eq_true]
    refine ⟨fun hkeeps => hkeeps.2.1.trans h, fun hnone => ?_⟩
    apply keepsKind_of_location
    · exact hnone.trans h.symm
    · intro hdrive
      exact absurd (hdrive.symm.trans h) (by decide)
    · rw [hcanonical] at hnone ⊢
      exact location_text_plain hnone
  · exact iff_of_true (keepsKind_drive h) (.inl rfl)

/-- A relative path becomes a path on a drive. -/
theorem not_keepsKind_dot :
    getCanonicalPathName (lit ".\\c:foo") = lit "c:foo" ∧ isRooted (lit ".\\c:foo") = false ∧
      ¬KeepsKind (lit ".\\c:foo") := by
  have hcanonical : getCanonicalPathName (lit ".\\c:foo") = lit "c:foo" := by decide
  refine ⟨hcanonical, by decide, fun h => ?_⟩
  have hdrive := h.2.1
  rw [hcanonical] at hdrive
  exact absurd hdrive (by decide)

end Afl.Win32FileNames
