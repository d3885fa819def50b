import Afl.Lib.Split
import Afl.String.FileNames

/-!
# POSIX file names

`afl/string/posixfilenames.cpp`.
-/

namespace Afl.PosixFileNames

open FileNames Paths

def pathSeparator : UInt8 := 47

def isAbsolutePathName (path : Bytes) : Bool := path.head? = some pathSeparator

def isPathSeparator (c : UInt8) : Bool := c = pathSeparator

def makePathName (path name : Bytes) : Bytes :=
  if isAbsolutePathName name then name
  else if path = lit "." then name
  else
    match path.getLast? with
    | some c => (if isPathSeparator c then path else path ++ [pathSeparator]) ++ name
    | none => path ++ name

def getCanonicalPathName (name : Bytes) : Bytes := canonicalName pathSeparator name

/-- `rfind`: the position of the last path separator. -/
def rfind : Bytes → Option Nat
  | [] => none
  | c :: s =>
    match rfind s with
    | some n => some (n + 1)
    | none => if c = pathSeparator then some 0 else none

def getFileName (name : Bytes) : Bytes :=
  match rfind name with
  | some n => name.drop (n + 1)
  | none => name

def getDirectoryName (name : Bytes) : Bytes :=
  match rfind name with
  | some 0 => [pathSeparator]
  | some (n + 1) => name.take (n + 1)
  | none => lit "."

/-! ### Locations -/

def location (name : Bytes) : Location (FileName pathSeparator) := FileNames.location pathSeparator name

/-- The steps of a relative path name. -/
def steps (name : Bytes) : List (Step (FileName pathSeparator)) := pathSteps pathSeparator name

theorem location_eq (name : Bytes) :
    location name = (Location.start (isAbsolutePathName name)).follow (steps name) := rfl

theorem pathSeparator_ne_dot : pathSeparator ≠ 46 := by decide

theorem location_makePathName (path : Bytes) {name : Bytes} (h : isAbsolutePathName name = false) :
    location (makePathName path name) = (location path).follow (steps name) := by
  have habsolute : ¬isAbsolutePathName name = true := by
    rw [h]
    decide
  have hnil : steps [] = [.stay] := pathSteps_nil
  rw [makePathName, if_neg habsolute]
  by_cases hdot : path = lit "."
  · have hsteps : steps (lit ".") = [.stay] := by
      rw [steps, pathSteps_of_not_mem (by decide), step_dot]
    have hrelative : isAbsolutePathName (lit ".") = false := by decide
    rw [if_pos hdot, hdot, location_eq (lit "."), hsteps, hrelative, location_eq, h]
    rfl
  · rw [if_neg hdot]
    rcases List.eq_nil_or_concat' path with rfl | ⟨init, c, rfl⟩
    · have hrelative : isAbsolutePathName [] = false := by decide
      rw [List.getLast?_nil, location_eq [], hnil, hrelative]
      show location name = _
      rw [location_eq, h]
      rfl
    · rw [List.getLast?_concat]
      by_cases hc : c = pathSeparator
      · have hsplit := pathSteps_append pathSeparator init name
        have hinit := pathSteps_append pathSeparator init []
        have hroot : isAbsolutePathName (init ++ pathSeparator :: name) = isAbsolutePathName (init ++ [pathSeparator]) := by
          rcases init with _ | ⟨d, init⟩ <;> rfl
        dsimp only
        have hseparator : isPathSeparator c = true := decide_eq_true hc
        rw [if_pos hseparator, hc, List.append_assoc, List.singleton_append, location_eq, location_eq, steps,
          hsplit, hroot, steps, hinit, pathSteps_nil, Location.follow_append, Location.follow_append]
        rfl
      · have hsplit := pathSteps_append pathSeparator (init ++ [c]) name
        have hroot : isAbsolutePathName (init ++ [c] ++ pathSeparator :: name) = isAbsolutePathName (init ++ [c]) := by
          rcases init with _ | ⟨d, init⟩ <;> rfl
        dsimp only
        have hseparator : ¬isPathSeparator c = true := by
          rw [isPathSeparator, decide_eq_false hc]
          decide
        rw [if_neg hseparator, List.append_assoc, List.singleton_append,
          location_eq, location_eq, steps, hsplit, hroot, Location.follow_append]
        rfl

/-! ### Taking names apart -/

theorem rfind_eq_none {s : Bytes} (h : pathSeparator ∉ s) : rfind s = none := by
  induction s with
  | nil => rfl
  | cons c s ih =>
    have hc : c ≠ pathSeparator := fun heq => h (heq ▸ List.mem_cons_self)
    rw [rfind, ih fun hmem => h (List.mem_cons_of_mem c hmem)]
    exact if_neg hc

theorem rfind_append (a : Bytes) {b : Bytes} (h : pathSeparator ∉ b) :
    rfind (a ++ pathSeparator :: b) = some a.length := by
  induction a with
  | nil =>
    rw [List.nil_append, rfind, rfind_eq_none h]
    exact if_pos rfl
  | cons c a ih => rw [List.cons_append, rfind, ih, List.length_cons]

theorem name_cases (name : Bytes) :
    pathSeparator ∉ name ∨ ∃ a b, name = a ++ pathSeparator :: b ∧ pathSeparator ∉ b := by
  induction name with
  | nil => exact .inl List.not_mem_nil
  | cons c name ih =>
    rcases ih with h | ⟨a, b, rfl, hb⟩
    · by_cases hc : c = pathSeparator
      · exact .inr ⟨[], name, by rw [hc, List.nil_append], h⟩
      · exact .inl fun hmem => (List.mem_cons.1 hmem).elim (fun heq => hc heq.symm) h
    · exact .inr ⟨c :: a, b, rfl, hb⟩

theorem isAbsolutePathName_of_not_mem {name : Bytes} (h : pathSeparator ∉ name) : isAbsolutePathName name = false :=
  decide_eq_false fun hhead => h (List.mem_of_head? hhead)

theorem location_directory_file (name : Bytes) :
    location (makePathName (getDirectoryName name) (getFileName name)) = location name := by
  rcases name_cases name with h | ⟨a, b, rfl, hb⟩
  · rw [getDirectoryName, getFileName, rfind_eq_none h]
    dsimp only
    rw [makePathName, if_neg (by rw [isAbsolutePathName_of_not_mem h]; decide), if_pos rfl]
  · have hfile : getFileName (a ++ pathSeparator :: b) = b := by
      rw [getFileName, rfind_append a hb]
      exact Split.drop_append a b pathSeparator
    have hdirectory : steps (a ++ pathSeparator :: b) = steps a ++ steps b := pathSteps_append pathSeparator a b
    rw [hfile, location_makePathName _ (isAbsolutePathName_of_not_mem hb), getDirectoryName, rfind_append a hb]
    rcases a with _ | ⟨c, a⟩
    · have hroot : steps [pathSeparator] = [.stay, .stay] := by decide
      dsimp only [List.length_nil]
      rw [location_eq, location_eq, hdirectory, Location.follow_append, hroot]
      rfl
    · dsimp only [List.length_cons]
      rw [← List.length_cons, List.take_left, location_eq, location_eq, hdirectory, Location.follow_append]
      rfl

/-- **Canonical path names**: they are canonical themselves and lead to the same location as the name they are made of,
a name can be taken apart, and a relative name appended to a path is resolved from there. -/
theorem posix_paths :
    (∀ x, getCanonicalPathName (getCanonicalPathName x) = getCanonicalPathName x ∧
      location (getCanonicalPathName x) = location x) ∧
    (∀ x, getCanonicalPathName (makePathName (getDirectoryName x) (getFileName x)) = getCanonicalPathName x) ∧
    ∀ p n, isAbsolutePathName n = false → location (makePathName p n) = (location p).follow (steps n) := by
  refine ⟨fun x => ⟨?_, ?_⟩, fun x => ?_, fun p n h => location_makePathName p h⟩
  · exact canonicalName_canonicalName pathSeparator_ne_dot x
  · exact location_canonicalName pathSeparator_ne_dot x
  · have hlocation := location_directory_file x
    rw [location, location] at hlocation
    rw [getCanonicalPathName, canonicalName_eq, hlocation, ← canonicalName_eq]
    rfl

theorem posix_paths_up :
    getCanonicalPathName (getCanonicalPathName (lit "../a//./../../b/")) = getCanonicalPathName (lit "../a//./../../b/") ∧
      getCanonicalPathName (makePathName (getDirectoryName (lit "/..")) (getFileName (lit "/.."))) =
        getCanonicalPathName (lit "/..") ∧
      location (makePathName (lit "a") (lit "../b")) = (location (lit "a")).follow (steps (lit "../b")) :=
  ⟨(posix_paths.1 _).1, posix_paths.2.1 _, posix_paths.2.2 _ _ (by decide)⟩

example : getCanonicalPathName (lit "../a/../../b/c") = lit "../../b/c" := by decide

end Afl.PosixFileNames
