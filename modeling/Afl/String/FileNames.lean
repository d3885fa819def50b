import Afl.Base.Bytes
import Afl.Lib.Paths

/-!
# Components of file names

What `getCanonicalPathName` of `afl/string/posixfilenames.cpp` and of `afl/string/win32filenames.cpp` have in common: the
loop over the components and the output, with the path separator as a parameter. A path name means a location, and the
canonical name is the text of that location.
-/

namespace Afl.FileNames

open Paths

variable (sep : UInt8)

/-- The variables of the loop. -/
structure PathScan where
  upCount : Nat
  out : List Bytes

def process (s : PathScan) (component : Bytes) : PathScan :=
  if component = [] then s
  else if component = lit "." then s
  else if component = lit ".." then
    if s.out ≠ [] then { s with out := s.out.dropLast } else { s with upCount := s.upCount + 1 }
  else { s with out := s.out ++ [component] }

/-- The loop over the components; `component` is what precedes the rest of the name since the last separator. -/
def scan (s : PathScan) (component : Bytes) : Bytes → PathScan
  | [] => process s component
  | c :: name => if c = sep then scan (process s component) [] name else scan s (component ++ [c]) name

def output (isAbsolute : Bool) (s : PathScan) : Bytes :=
  let text := (if isAbsolute then [sep] else (List.replicate s.upCount (lit ".." ++ [sep])).flatten) ++
    [sep].intercalate s.out
  if text = [] then lit "." else text

/-- `getCanonicalPathName` of a name without drive. -/
def canonicalName (name : Bytes) : Bytes :=
  if name.head? = some sep then output sep true (scan sep ⟨0, []⟩ [] (name.drop 1))
  else output sep false (scan sep ⟨0, []⟩ [] name)

/-! ### The location of a path name -/

def IsName (component : Bytes) : Prop :=
  sep ∉ component ∧ component ≠ [] ∧ component ≠ lit "." ∧ component ≠ lit ".."

instance : DecidablePred (IsName sep) := fun _ => inferInstanceAs (Decidable (_ ∧ _ ∧ _ ∧ _))

abbrev FileName := { component : Bytes // IsName sep component }

def step (component : Bytes) : Step (FileName sep) :=
  if component = lit ".." then .up
  else if h : IsName sep component then .down ⟨component, h⟩
  else .stay

def pathSteps (name : Bytes) : List (Step (FileName sep)) := (name.splitOn sep).map (step sep)

def location (name : Bytes) : Location (FileName sep) :=
  (Location.start (name.head? = some sep)).follow (pathSteps sep name)

/-- The canonical path name of a location. -/
def text (l : Location (FileName sep)) : Bytes := output sep l.rooted ⟨l.ups, l.names.map (·.1)⟩

/-! ### The loop finds the location -/

variable {sep}

@[simp] theorem step_nil : step sep [] = .stay := by
  rw [step, if_neg (by decide), dif_neg]
  exact fun h => h.2.1 rfl

@[simp] theorem step_dot : step sep (lit ".") = .stay := by
  rw [step, if_neg (by decide), dif_neg]
  exact fun h => h.2.2.1 rfl

@[simp] theorem step_dots : step sep (lit "..") = .up := if_pos rfl

theorem step_name (n : FileName sep) : step sep n.1 = .down n := by
  rw [step, if_neg n.2.2.2.2, dif_pos n.2]

theorem pathSteps_append (sep : UInt8) (a b : Bytes) :
    pathSteps sep (a ++ sep :: b) = pathSteps sep a ++ pathSteps sep b := by
  rw [pathSteps, List.splitOn_append_cons_self, List.map_append]
  rfl

theorem pathSteps_of_not_mem {component : Bytes} (h : sep ∉ component) :
    pathSteps sep component = [step sep component] := by
  rw [pathSteps, List.splitOn_eq_singleton h]
  rfl

@[simp] theorem pathSteps_nil : pathSteps sep [] = [.stay] := by
  rw [pathSteps_of_not_mem List.not_mem_nil, step_nil]

/-- The loop has the names of a location, and its levels if it is not rooted. -/
structure Shows (s : PathScan) (l : Location (FileName sep)) : Prop where
  out : s.out = l.names.map (·.1)
  upCount : l.rooted = false → s.upCount = l.ups

theorem Shows.process {s : PathScan} {l : Location (FileName sep)} (h : Shows s l) {component : Bytes}
    (hcomponent : sep ∉ component) : Shows (process s component) (l.move (step sep component)) := by
  rw [FileNames.process]
  by_cases hnil : component = []
  · rw [if_pos hnil, hnil, step_nil]
    exact h
  by_cases hdot : component = lit "."
  · rw [if_neg hnil, if_pos hdot, hdot, step_dot]
    exact h
  by_cases hdots : component = lit ".."
  · rw [if_neg hnil, if_neg hdot, if_pos hdots, hdots, step_dots, Location.move]
    by_cases hnames : l.names = []
    · have hout : ¬s.out ≠ [] := by
        rw [h.out, hnames]
        simp
      rw [if_neg hout, if_pos hnames, Location.rise]
      by_cases hrooted : l.rooted = true
      · rw [dif_pos hrooted]
        exact ⟨h.out, fun hfalse => absurd (hrooted.symm.trans hfalse) (by decide)⟩
      · rw [dif_neg hrooted]
        exact ⟨h.out, fun hfalse => congrArg Nat.succ (h.upCount hfalse)⟩
    · have hout : s.out ≠ [] := by
        rw [h.out]
        exact fun hnil => hnames (List.map_eq_nil_iff.1 hnil)
      rw [if_pos hout, if_neg hnames]
      refine ⟨?_, h.upCount⟩
      show s.out.dropLast = _
      rw [h.out, List.map_dropLast]
  · have hname : IsName sep component := ⟨hcomponent, hnil, hdot, hdots⟩
    have hdown : step sep component = .down ⟨component, hname⟩ := step_name ⟨component, hname⟩
    rw [if_neg hnil, if_neg hdot, if_neg hdots, hdown]
    refine ⟨?_, h.upCount⟩
    show s.out ++ [component] = _
    rw [h.out, Location.move, List.map_append]
    rfl

theorem scan_eq {component : Bytes} (h : sep ∉ component) (s : PathScan) (name : Bytes) :
    scan sep s component name = ((component ++ name).splitOn sep).foldl process s := by
  induction name generalizing s component with
  | nil =>
    rw [scan, List.append_nil, List.splitOn_eq_singleton h]
    rfl
  | cons c name ih =>
    rw [scan]
    split_ifs with hc
    · rw [ih List.not_mem_nil, hc, List.splitOn_append_cons_self_of_not_mem h]
      rfl
    · have hnot : sep ∉ component ++ [c] := by
        rw [List.mem_append, List.mem_singleton]
        exact fun hmem => hmem.elim h fun heq => hc heq.symm
      rw [ih hnot, List.append_assoc, List.singleton_append]

theorem Shows.foldl {components : List Bytes} (hcomponents : ∀ c ∈ components, sep ∉ c) {s : PathScan}
    {l : Location (FileName sep)} (h : Shows s l) :
    Shows (components.foldl FileNames.process s) (l.follow (components.map (step sep))) := by
  induction components generalizing s l with
  | nil => exact h
  | cons c components ih =>
    rw [List.forall_mem_cons] at hcomponents
    exact ih hcomponents.2 (h.process hcomponents.1)

theorem not_mem_splitOn (name : Bytes) : ∀ c ∈ name.splitOn sep, sep ∉ c := by
  induction name with
  | nil =>
    rw [List.splitOn_nil]
    exact List.forall_mem_singleton.2 List.not_mem_nil
  | cons c name ih =>
    obtain ⟨component, components, hcons⟩ := List.exists_cons_of_ne_nil (List.splitOn_ne_nil sep name)
    rw [List.splitOn_cons_eq_if_modifyHead, hcons]
    rw [hcons, List.forall_mem_cons] at ih
    by_cases hc : c = sep
    · rw [if_pos (beq_iff_eq.2 hc)]
      exact List.forall_mem_cons.2 ⟨List.not_mem_nil, List.forall_mem_cons.2 ih⟩
    · rw [if_neg (mt beq_iff_eq.1 hc)]
      refine List.forall_mem_cons.2 ⟨fun hmem => ?_, ih.2⟩
      exact (List.mem_cons.1 hmem).elim (fun heq => hc heq.symm) ih.1

theorem shows_scan (sep : UInt8) (rooted : Bool) (name : Bytes) :
    Shows (scan sep ⟨0, []⟩ [] name) ((Location.start rooted).follow (pathSteps sep name)) := by
  rw [scan_eq List.not_mem_nil]
  exact Shows.foldl (not_mem_splitOn name) ⟨rfl, fun _ => rfl⟩

theorem Shows.output {s : PathScan} {l : Location (FileName sep)} (h : Shows s l) :
    output sep l.rooted s = text sep l := by
  rw [text, FileNames.output, FileNames.output, h.out]
  rcases hrooted : l.rooted with _ | _
  · rw [h.upCount hrooted]
  · rfl

/-- **The canonical name is the text of the location.** -/
theorem canonicalName_eq (name : Bytes) : canonicalName sep name = text sep (location sep name) := by
  rw [canonicalName, location]
  split_ifs with hrooted
  · obtain ⟨rest, rfl⟩ : ∃ rest, name = sep :: rest := by
      rcases name with _ | ⟨c, rest⟩
      · exact absurd hrooted nofun
      · exact ⟨rest, by rw [Option.some.inj hrooted]⟩
    have hsteps : pathSteps sep (sep :: rest) = .stay :: pathSteps sep rest := by
      have happend := pathSteps_append sep [] rest
      rwa [pathSteps_nil] at happend
    have hshows := (shows_scan sep true rest).output
    rw [Location.rooted_follow] at hshows
    rw [decide_eq_true hrooted, hsteps, Location.follow_cons, Location.move_stay]
    exact hshows
  · have hshows := (shows_scan sep false name).output
    rw [Location.rooted_follow] at hshows
    rw [decide_eq_false hrooted]
    exact hshows

/-! ### The text leads to the location -/

theorem not_mem_dots (hsep : sep ≠ 46) : sep ∉ lit ".." := by
  have hdots : lit ".." = [46, 46] := rfl
  rw [hdots]
  simpa using hsep

theorem not_mem_dot (hsep : sep ≠ 46) : sep ∉ lit "." := by
  have hdot : lit "." = [46] := rfl
  rw [hdot]
  simpa using hsep

theorem pathSteps_ups (hsep : sep ≠ 46) (n : Nat) (rest : Bytes) :
    pathSteps sep ((List.replicate n (lit ".." ++ [sep])).flatten ++ rest) =
      List.replicate n .up ++ pathSteps sep rest := by
  induction n with
  | zero => rfl
  | succ n ih =>
    rw [List.replicate_succ, List.flatten_cons, List.append_assoc, List.append_assoc, List.singleton_append,
      pathSteps_append, ih, pathSteps_of_not_mem (not_mem_dots hsep), step_dots, List.replicate_succ]
    rfl

theorem pathSteps_names {names : List (FileName sep)} (h : names ≠ []) :
    pathSteps sep ([sep].intercalate (names.map (·.1))) = names.map .down := by
  have hsplit : ([sep].intercalate (names.map (·.1))).splitOn sep = names.map (·.1) := by
    refine List.splitOn_intercalate sep ?_ fun hnil => h (List.map_eq_nil_iff.1 hnil)
    intro component hcomponent
    obtain ⟨n, -, rfl⟩ := List.mem_map.1 hcomponent
    exact n.2.1
  rw [pathSteps, hsplit, List.map_map]
  apply List.map_congr_left
  intro n _
  exact step_name n

theorem head_names (n : FileName sep) (names : List (FileName sep)) :
    ∃ c rest, [sep].intercalate ((n :: names).map (·.1)) = c :: rest ∧ c ≠ sep ∧ n.1.head? = some c := by
  obtain ⟨component, hname⟩ := n
  rcases component with _ | ⟨c, component⟩
  · exact absurd rfl hname.2.1
  · have hc : c ≠ sep := fun heq => hname.1 (heq ▸ List.mem_cons_self)
    rcases names with _ | ⟨m, names⟩
    · exact ⟨c, component, by simp [List.intercalate], hc, rfl⟩
    · exact ⟨c, component ++ sep :: [sep].intercalate ((m :: names).map (·.1)), by simp [List.intercalate], hc, rfl⟩

/-- The text of a location, case by case. -/
inductive Spelled : Location (FileName sep) → Bytes → Prop
  | root (l : Location (FileName sep)) (hrooted : l.rooted = true) :
      Spelled l (sep :: [sep].intercalate (l.names.map (·.1)))
  | higher (l : Location (FileName sep)) (n : Nat) (hrooted : l.rooted = false) (hups : l.ups = n + 1) :
      Spelled l ((List.replicate (n + 1) (lit ".." ++ [sep])).flatten ++ [sep].intercalate (l.names.map (·.1)))
  | names (l : Location (FileName sep)) (hrooted : l.rooted = false) (hups : l.ups = 0) (hnames : l.names ≠ []) :
      Spelled l ([sep].intercalate (l.names.map (·.1)))
  | here (l : Location (FileName sep)) (hrooted : l.rooted = false) (hups : l.ups = 0) (hnames : l.names = []) :
      Spelled l (lit ".")

theorem spelled_text (l : Location (FileName sep)) : Spelled l (text sep l) := by
  rw [text, output]
  rcases hrooted : l.rooted with _ | _
  · rcases hups : l.ups with _ | n
    · rcases hnames : l.names with _ | ⟨n, names⟩
      · exact .here l hrooted hups hnames
      · obtain ⟨c, rest, htext, -⟩ := head_names n names
        have hspelled := Spelled.names l hrooted hups (by rw [hnames]; exact List.cons_ne_nil n names)
        rw [hnames, htext] at hspelled
        dsimp only
        rw [htext]
        exact hspelled
    · have hspelled := Spelled.higher l n hrooted hups
      have hne : (List.replicate (n + 1) (lit ".." ++ [sep])).flatten ++ [sep].intercalate (l.names.map (·.1)) ≠ [] := by
        rw [List.replicate_succ, List.flatten_cons]
        exact nofun
      simp only [Bool.false_eq_true, if_false]
      rwa [if_neg hne]
  · exact .root l hrooted

/-- **The text of a location leads there.** -/
theorem location_text (hsep : sep ≠ 46) (l : Location (FileName sep)) : location sep (text sep l) = l := by
  have hl := l.follow_steps
  have hspelled := spelled_text l
  rw [Location.steps] at hl
  rw [location]
  generalize text sep l = t at hspelled
  rcases hspelled with ⟨hrooted⟩ | ⟨n, hrooted, hups⟩ | ⟨hrooted, hups, hnames⟩ | ⟨hrooted, hups, hnames⟩
  · have hsteps := pathSteps_append sep [] ([sep].intercalate (l.names.map (·.1)))
    rw [List.nil_append, pathSteps_nil, List.singleton_append] at hsteps
    rw [hsteps, Location.follow_cons, Location.move_stay, List.head?_cons, decide_eq_true rfl]
    rw [hrooted, l.below hrooted, List.replicate_zero, List.nil_append] at hl
    by_cases hnames : l.names = []
    · rw [hnames] at hl ⊢
      exact hl
    · rw [pathSteps_names hnames]
      exact hl
  · have hhead : ((List.replicate (n + 1) (lit ".." ++ [sep])).flatten ++
        [sep].intercalate (l.names.map (·.1))).head? = some 46 := by
      rw [List.replicate_succ, List.flatten_cons]
      rfl
    have hroot : decide (some 46 = some sep) = l.rooted := by
      rw [hrooted]
      exact decide_eq_false fun heq => hsep (Option.some.inj heq).symm
    rw [hhead, hroot, pathSteps_ups hsep]
    rw [hups] at hl
    by_cases hnames : l.names = []
    · rw [hnames, List.map_nil, List.append_nil] at hl
      rw [hnames, Location.follow_append]
      exact hl
    · rw [pathSteps_names hnames]
      exact hl
  · obtain ⟨m, names, hcons⟩ := List.exists_cons_of_ne_nil hnames
    obtain ⟨c, rest, htext, hc, -⟩ := head_names m names
    rw [← hcons] at htext
    have hroot : decide (([sep].intercalate (l.names.map (·.1))).head? = some sep) = l.rooted := by
      rw [hrooted, htext]
      exact decide_eq_false fun heq => hc (Option.some.inj heq)
    rw [hroot, pathSteps_names hnames]
    rw [hups, List.replicate_zero, List.nil_append] at hl
    exact hl
  · have hroot : decide ((lit ".").head? = some sep) = l.rooted := by
      rw [hrooted]
      exact decide_eq_false fun heq => hsep (Option.some.inj heq).symm
    rw [hroot, pathSteps_of_not_mem (not_mem_dot hsep), step_dot]
    rw [hups, hnames] at hl
    exact hl

theorem location_canonicalName (hsep : sep ≠ 46) (name : Bytes) :
    location sep (canonicalName sep name) = location sep name := by
  rw [canonicalName_eq, location_text hsep]

theorem canonicalName_canonicalName (hsep : sep ≠ 46) (name : Bytes) :
    canonicalName sep (canonicalName sep name) = canonicalName sep name := by
  rw [canonicalName_eq (canonicalName sep name), location_canonicalName hsep, ← canonicalName_eq]

/-! ### Characters -/

theorem mem_intercalate {c : UInt8} {components : List Bytes} (h : c ∈ [sep].intercalate components) :
    c = sep ∨ ∃ component ∈ components, c ∈ component := by
  induction components with
  | nil => exact absurd h List.not_mem_nil
  | cons first components ih =>
    by_cases hnil : components = []
    · rw [hnil, List.intercalate_singleton] at h
      exact .inr ⟨first, List.mem_cons_self, h⟩
    · rw [List.intercalate_cons_of_ne_nil hnil, List.mem_append, List.mem_append, List.mem_singleton] at h
      rcases h with (h | h) | h
      · exact .inr ⟨first, List.mem_cons_self, h⟩
      · exact .inl h
      · rcases ih h with hc | ⟨component, hcomponent, hc⟩
        · exact .inl hc
        · exact .inr ⟨component, List.mem_cons_of_mem first hcomponent, hc⟩

theorem mem_of_mem_splitOn {c : UInt8} {name component : Bytes} (hcomponent : component ∈ name.splitOn sep)
    (hc : c ∈ component) : c ∈ name := by
  induction name generalizing component with
  | nil =>
    rw [List.splitOn_nil, List.mem_singleton] at hcomponent
    rw [hcomponent] at hc
    exact hc
  | cons d name ih =>
    obtain ⟨first, components, hcons⟩ := List.exists_cons_of_ne_nil (List.splitOn_ne_nil sep name)
    rw [List.splitOn_cons_eq_if_modifyHead, hcons] at hcomponent
    rw [hcons] at ih
    split_ifs at hcomponent with hd
    · rcases List.mem_cons.1 hcomponent with rfl | hmem
      · exact absurd hc List.not_mem_nil
      · exact List.mem_cons_of_mem d (ih hmem hc)
    · rcases List.mem_cons.1 hcomponent with rfl | hmem
      · rcases List.mem_cons.1 hc with rfl | hc
        · exact List.mem_cons_self
        · exact List.mem_cons_of_mem d (ih List.mem_cons_self hc)
      · exact List.mem_cons_of_mem d (ih (List.mem_cons_of_mem first hmem) hc)

theorem mem_of_mem_names {c : UInt8} {name : Bytes} {n : FileName sep} (hn : n ∈ (location sep name).names)
    (hc : c ∈ n.1) : c ∈ name := by
  rcases Location.mem_follow hn with hmem | hmem
  · exact absurd hmem List.not_mem_nil
  · obtain ⟨component, hcomponent, hstep⟩ := List.mem_map.1 hmem
    rw [step] at hstep
    split_ifs at hstep with hdots hname
    rw [← Step.down.inj hstep] at hc
    exact mem_of_mem_splitOn hcomponent hc

theorem mem_canonicalName {name : Bytes} {c : UInt8} (h : c ∈ canonicalName sep name) :
    c ∈ name ∨ c = sep ∨ c = 46 := by
  have hnames : c ∈ [sep].intercalate ((location sep name).names.map (·.1)) → c ∈ name ∨ c = sep ∨ c = 46 := by
    intro hmem
    rcases mem_intercalate hmem with hc | ⟨component, hcomponent, hc⟩
    · exact .inr (.inl hc)
    · obtain ⟨n, hn, rfl⟩ := List.mem_map.1 hcomponent
      exact .inl (mem_of_mem_names hn hc)
  have hdots : lit ".." = [46, 46] := rfl
  have hdot : lit "." = [46] := rfl
  have hspelled := spelled_text (location sep name)
  rw [canonicalName_eq] at h
  generalize text sep (location sep name) = t at hspelled h
  rcases hspelled with ⟨-⟩ | ⟨n, -, -⟩ | ⟨-, -, -⟩ | ⟨-, -, -⟩
  · exact (List.mem_cons.1 h).elim (fun hc => .inr (.inl hc)) hnames
  · rcases List.mem_append.1 h with hc | hc
    · obtain ⟨piece, hpiece, hc⟩ := List.mem_flatten.1 hc
      rw [(List.mem_replicate.1 hpiece).2, hdots, List.mem_append, List.mem_singleton] at hc
      refine .inr (hc.elim (fun hc => .inr ?_) .inl)
      simpa using hc
    · exact hnames hc
  · exact hnames h
  · rw [hdot, List.mem_singleton] at h
    exact .inr (.inr h)

end Afl.FileNames
