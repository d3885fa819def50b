import Mathlib.Data.List.Basic

/-!
# Lexical resolution of paths

A path is a list of steps: to a child, to the parent, or nowhere. A location is where the steps lead without looking at
any file: the names below the root, or below the directory some levels above the one where the path starts.
-/

namespace Paths

variable {κ : Type}

/-- A component of a path. -/
inductive Step (κ : Type)
  | stay
  | up
  | down (name : κ)
deriving DecidableEq

/-- Where a path leads. There is nothing above the root. -/
structure Location (κ : Type) where
  rooted : Bool
  ups : Nat
  names : List κ
  below : rooted = true → ups = 0

namespace Location

@[ext] theorem ext' {l m : Location κ} (hrooted : l.rooted = m.rooted) (hups : l.ups = m.ups)
    (hnames : l.names = m.names) : l = m := by
  obtain ⟨r, u, n, h⟩ := l
  obtain ⟨r', u', n', h'⟩ := m
  simp only at hrooted hups hnames
  subst hrooted hups hnames
  rfl

/-- The root, or the directory where a relative path starts. -/
def start (rooted : Bool) : Location κ := ⟨rooted, 0, [], fun _ => rfl⟩

/-- One level higher than the start. -/
def rise (l : Location κ) : Location κ :=
  if h : l.rooted = true then l else ⟨l.rooted, l.ups + 1, l.names, fun hroot => absurd hroot h⟩

def move (l : Location κ) : Step κ → Location κ
  | .stay => l
  | .up => if l.names = [] then l.rise else { l with names := l.names.dropLast }
  | .down name => { l with names := l.names ++ [name] }

def follow (l : Location κ) (steps : List (Step κ)) : Location κ := steps.foldl move l

@[simp] theorem follow_nil (l : Location κ) : l.follow [] = l := rfl

@[simp] theorem follow_cons (l : Location κ) (s : Step κ) (steps : List (Step κ)) :
    l.follow (s :: steps) = (l.move s).follow steps := rfl

@[simp] theorem follow_append (l : Location κ) (steps more : List (Step κ)) :
    l.follow (steps ++ more) = (l.follow steps).follow more := List.foldl_append

@[simp] theorem move_stay (l : Location κ) : l.move .stay = l := rfl

@[simp] theorem rooted_move (l : Location κ) (s : Step κ) : (l.move s).rooted = l.rooted := by
  rcases s with _ | _ | name
  · rfl
  · rw [move, rise]
    split_ifs <;> rfl
  · rfl

@[simp] theorem rooted_follow (l : Location κ) (steps : List (Step κ)) : (l.follow steps).rooted = l.rooted := by
  induction steps generalizing l with
  | nil => rfl
  | cons s steps ih => rw [follow_cons, ih, rooted_move]

/-- The shortest path that leads there. -/
def steps (l : Location κ) : List (Step κ) := List.replicate l.ups .up ++ l.names.map .down

theorem follow_up (l : Location κ) (hrooted : l.rooted = false) (hnames : l.names = []) (n : Nat) :
    (l.follow (List.replicate n .up)) = ⟨l.rooted, l.ups + n, [], by rw [hrooted]; exact nofun⟩ := by
  induction n generalizing l with
  | zero =>
    apply ext'
    · rfl
    · rfl
    · exact hnames
  | succ n ih =>
    have hrise : l.move .up = ⟨l.rooted, l.ups + 1, l.names, by rw [hrooted]; exact nofun⟩ := by
      rw [move, if_pos hnames, rise, dif_neg (by rw [hrooted]; exact nofun)]
    rw [List.replicate_succ, follow_cons, hrise, ih ⟨l.rooted, l.ups + 1, l.names, _⟩ hrooted hnames]
    apply ext'
    · rfl
    · show l.ups + 1 + n = l.ups + (n + 1)
      omega
    · rfl

theorem follow_down (l : Location κ) (names : List κ) :
    l.follow (names.map .down) = { l with names := l.names ++ names } := by
  induction names generalizing l with
  | nil =>
    rw [List.map_nil, follow_nil, List.append_nil]
  | cons name names ih =>
    rw [List.map_cons, follow_cons, ih, move, List.append_assoc]
    rfl

/-- **The steps of a location lead there.** -/
theorem follow_steps (l : Location κ) : (start l.rooted).follow l.steps = l := by
  rw [steps, follow_append, follow_down]
  rcases hrooted : l.rooted with _ | _
  · rw [follow_up _ rfl rfl]
    apply ext'
    · exact hrooted.symm
    · exact Nat.zero_add l.ups
    · exact List.nil_append l.names
  · rw [l.below hrooted]
    apply ext'
    · exact hrooted.symm
    · exact (l.below hrooted).symm
    · exact List.nil_append l.names

theorem mem_follow {l : Location κ} {steps : List (Step κ)} {name : κ} (h : name ∈ (l.follow steps).names) :
    name ∈ l.names ∨ .down name ∈ steps := by
  induction steps generalizing l with
  | nil => exact .inl h
  | cons s steps ih =>
    rcases ih h with hmem | hmem
    · rcases s with _ | _ | m
      · exact .inl hmem
      · rw [move, rise] at hmem
        split_ifs at hmem
        · exact .inl hmem
        · exact .inl hmem
        · exact .inl (List.dropLast_subset _ hmem)
      · rcases List.mem_append.1 hmem with hmem | hmem
        · exact .inl hmem
        · rw [List.mem_singleton.1 hmem]
          exact .inr List.mem_cons_self
    · exact .inr (List.mem_cons_of_mem s hmem)

end Location

end Paths
