import Afl.Net.Redis.Safe

/-!
# Commands with given arguments

What a command does when its arguments are known: each of them is read, and a typed lookup finds what is there. `DEL`,
`HDEL`, `HMSET`, `LPUSH`, `RPUSH`, `MSET`, `SADD` and `SREM` convert each argument only when its turn comes, after the
earlier ones have been carried out; an argument that cannot be converted (an error value) ends the command there.
`eaten` is what such a loop reads, and each command's effect is stated over it.
-/

namespace Afl.Net.Redis

open Exec

/-! ### What the loops read -/

/-- The values the loop variable takes, and the exception of the first argument that cannot be converted. -/
def eaten : Segment → Bytes → List Bytes × Option Exception
  | [], _ => ([], none)
  | x :: v, value =>
    match x.eatString value with
    | .error e => ([], some e)
    | .ok value => (value :: (eaten v value).1, (eaten v value).2)

/-- The same for a loop that reads two variables. -/
def eatenPairs : Segment → Bytes → Bytes → List (Bytes × Bytes) × Option Exception
  | [], _, _ => ([], none)
  | [x], field, value =>
    match x.eatString field with
    | .error e => ([], some e)
    | .ok field => ([(field, value)], none)
  | x :: y :: v, field, value =>
    match x.eatString field with
    | .error e => ([], some e)
    | .ok field =>
      match y.eatString value with
      | .error e => ([], some e)
      | .ok value => ((field, value) :: (eatenPairs v field value).1, (eatenPairs v field value).2)

/-- The outcome of a loop that computed `a` from what it read. -/
def loopOutcome {α : Type} (e : Option Exception) (a : α) : Except Failure α :=
  match e with
  | none => .ok a
  | some e => .error (.thrown e)

variable {α : Type}

@[simp] theorem loopOutcome_none (a : α) : loopOutcome none a = .ok a := rfl

@[simp] theorem loopOutcome_some (e : Exception) (a : α) :
    loopOutcome (some e) a = .error (.thrown e) := rfl

@[simp] theorem exec_liftE_ok (a : α) (d : Data) : exec (liftE (.ok a)) d = (.ok a, d) := rfl

@[simp] theorem exec_liftE_error (e : Exception) (d : Data) :
    exec (liftE (.error e) : Db α) d = (.error (.thrown e), d) := rfl

/-- The loop rule: a body that always returns and carries the invariant `I`, over the values read so far, from
one round to the next carries it to everything read before the exception, if any. -/
theorem exec_eatEach {body : Bytes → α → Db α} {I : List Bytes → α → Data → Prop}
    (hbody : ∀ seen s acc d, I seen acc d →
      ∃ acc' d', exec (body s acc) d = (.ok acc', d') ∧ I (seen ++ [s]) acc' d')
    (v : Segment) (value : Bytes) {seen : List Bytes} {acc : α} {d : Data} (h : I seen acc d) :
    ∃ acc' d', exec (eatEach body v value acc) d = (loopOutcome (eaten v value).2 acc', d') ∧
      I (seen ++ (eaten v value).1) acc' d' := by
  induction v generalizing value seen acc d with
  | nil => exact ⟨acc, d, rfl, by simpa [eaten] using h⟩
  | cons x v ih =>
    unfold eatEach
    cases hx : x.eatString value with
    | error e =>
      refine ⟨acc, d, ?_, by simpa [eaten, hx] using h⟩
      rw [exec_bind_error (exec_liftE_error _ _)]
      simp only [eaten, hx, loopOutcome_some]
    | ok s =>
      obtain ⟨acc₁, d₁, hround, h₁⟩ := hbody seen s acc d h
      obtain ⟨acc', d', hrest, h'⟩ := ih s h₁
      refine ⟨acc', d', ?_, by simpa [eaten, hx] using h'⟩
      rw [exec_bind_ok (exec_liftE_ok _ _), exec_bind_ok hround, hrest]
      simp only [eaten, hx]

theorem exec_eatEach_bind {body : Bytes → α → Db α} {I : List Bytes → α → Data → Prop}
    (hbody : ∀ seen s acc d, I seen acc d →
      ∃ acc' d', exec (body s acc) d = (.ok acc', d') ∧ I (seen ++ [s]) acc' d')
    (v : Segment) (value : Bytes) {acc : α} {d : Data} (h : I [] acc d) :
    ∃ acc' d', I (eaten v value).1 acc' d' ∧ ∀ {β : Type} (f : α → Db β),
      exec (eatEach body v value acc >>= f) d =
        match (eaten v value).2 with
        | none => exec (f acc') d'
        | some e => (.error (.thrown e), d') := by
  obtain ⟨acc', d', hloop, hI⟩ := exec_eatEach hbody v value h
  refine ⟨acc', d', hI, fun f => ?_⟩
  cases he : (eaten v value).2 with
  | none =>
    rw [he] at hloop
    exact exec_bind_ok hloop
  | some e =>
    rw [he] at hloop
    exact exec_bind_error hloop

theorem exec_eatEachPair {body : Bytes → Bytes → Db Unit} {I : List (Bytes × Bytes) → Data → Prop}
    (hbody : ∀ seen p d, I seen d → ∃ d', exec (body p.1 p.2) d = (.ok (), d') ∧ I (seen ++ [p]) d')
    (v : Segment) (field value : Bytes) {seen : List (Bytes × Bytes)} {d : Data} (h : I seen d) :
    ∃ d', exec (eatEachPair body v field value) d = (loopOutcome (eatenPairs v field value).2 (), d') ∧
      I (seen ++ (eatenPairs v field value).1) d' := by
  induction v, field, value using eatenPairs.induct generalizing seen d with
  | case1 field value => exact ⟨d, rfl, by simpa [eatenPairs] using h⟩
  | case2 x field value e hx =>
    refine ⟨d, ?_, by simpa [eatenPairs, hx] using h⟩
    unfold eatEachPair
    rw [hx, exec_bind_error (exec_liftE_error _ _)]
    simp only [eatenPairs, hx, loopOutcome_some]
  | case3 x field value s hx =>
    obtain ⟨d', hround, h'⟩ := hbody seen (s, value) d h
    refine ⟨d', ?_, by simpa [eatenPairs, hx] using h'⟩
    unfold eatEachPair
    rw [hx, exec_bind_ok (exec_liftE_ok _ _), hround]
    simp only [eatenPairs, hx, loopOutcome_none]
  | case4 x y v field value e hx =>
    refine ⟨d, ?_, by simpa [eatenPairs, hx] using h⟩
    unfold eatEachPair
    rw [hx, exec_bind_error (exec_liftE_error _ _)]
    simp only [eatenPairs, hx, loopOutcome_some]
  | case5 x y v field value s hx e hy =>
    refine ⟨d, ?_, by simpa [eatenPairs, hx, hy] using h⟩
    unfold eatEachPair
    rw [hx, exec_bind_ok (exec_liftE_ok _ _), hy, exec_bind_error (exec_liftE_error _ _)]
    simp only [eatenPairs, hx, hy, loopOutcome_some]
  | case6 x y v field value s hx t hy ih =>
    obtain ⟨d₁, hround, h₁⟩ := hbody seen (s, t) d h
    obtain ⟨d', hrest, h'⟩ := ih h₁
    refine ⟨d', ?_, by simpa [eatenPairs, hx, hy] using h'⟩
    unfold eatEachPair
    rw [hx, exec_bind_ok (exec_liftE_ok _ _), hy, exec_bind_ok (exec_liftE_ok _ _), exec_bind_ok hround, hrest]
    simp only [eatenPairs, hx, hy]

theorem exec_eatEachPair_bind {body : Bytes → Bytes → Db Unit} {I : List (Bytes × Bytes) → Data → Prop}
    (hbody : ∀ seen p d, I seen d → ∃ d', exec (body p.1 p.2) d = (.ok (), d') ∧ I (seen ++ [p]) d')
    (v : Segment) {d : Data} (h : I [] d) (a : α) :
    ∃ d', I (eatenPairs v [] []).1 d' ∧
      exec (eatEachPair body v [] [] >>= fun _ => pure a) d = (loopOutcome (eatenPairs v [] []).2 a, d') := by
  obtain ⟨d', hloop, hI⟩ := exec_eatEachPair hbody v [] [] h
  refine ⟨d', hI, ?_⟩
  cases he : (eatenPairs v [] []).2 with
  | none =>
    rw [he] at hloop
    exact exec_bind_ok hloop
  | some e =>
    rw [he] at hloop
    exact exec_bind_error hloop

/-! ### The dispatch -/

theorem strUCase_text (verb : Verb) : strUCase verb.text = verb.text := by
  cases verb <;> rfl

theorem ofText_text (verb : Verb) : Verb.ofText verb.text = some verb := by
  cases verb <;> decide

theorem exec_call (S : StdSort) (rand : Nat) (verb : Verb) (v : Segment) (d : Data) :
    exec (call S rand (.string verb.text :: v)) d =
      ((exec (executeVerb S rand verb v) d).1.mapError (addVerb verb.text), (exec (executeVerb S rand verb v) d).2) := by
  have hcall : call S rand (.string verb.text :: v) =
      mapError (addVerb (strUCase verb.text)) (execute S rand (strUCase verb.text) v) := rfl
  rw [hcall, strUCase_text, execute, ofText_text]
  exact exec_mapError _ _ _

theorem exec_call_ok {S : StdSort} {rand : Nat} {verb : Verb} {v : Segment} {d d' : Data} {a : Value}
    (h : exec (executeVerb S rand verb v) d = (.ok a, d')) :
    exec (call S rand (.string verb.text :: v)) d = (.ok a, d') := by
  rw [exec_call, h]
  rfl

theorem exec_call_thrown {S : StdSort} {rand : Nat} {verb : Verb} {v : Segment} {d d' : Data} {e : Exception}
    (h : exec (executeVerb S rand verb v) d = (.error (.thrown e), d')) :
    ∃ e', exec (call S rand (.string verb.text :: v)) d = (.error (.thrown e'), d') := by
  rw [exec_call, h]
  exact ⟨_, rfl⟩

theorem exec_call_eq_ok_iff {S : StdSort} {rand : Nat} {verb : Verb} {v : Segment} {d d' : Data} {a : Value} :
    exec (call S rand (.string verb.text :: v)) d = (.ok a, d') ↔ exec (executeVerb S rand verb v) d = (.ok a, d') := by
  rw [exec_call]
  rcases exec (executeVerb S rand verb v) d with ⟨e | b, d₁⟩
  · exact ⟨fun h => (by cases h), fun h => (by cases h)⟩
  · exact Iff.rfl

/-! ### Arguments -/

@[simp] theorem eatString_string (s value : Bytes) : (Value.string s).eatString value = .ok s := rfl

variable {α : Type} {x : Value} {v : Segment} {d : Data}

theorem exec_checkArgumentCount_bind {n : Nat} (h : v.length = n) (f : Unit → Db α) (d : Data) :
    exec (checkArgumentCount v n >>= f) d = exec (f ()) d := by
  rw [checkArgumentCount, if_neg (not_not.mpr h)]
  exact exec_bind_ok rfl

theorem exec_checkArgumentCountAtLeast_bind {need : Nat} (h : need ≤ v.length) (f : Unit → Db α) (d : Data) :
    exec (checkArgumentCountAtLeast v need >>= f) d = exec (f ()) d := by
  rw [checkArgumentCountAtLeast, if_neg (Nat.not_lt.mpr h)]
  exact exec_bind_ok rfl

theorem exec_checkParity_bind {parity : Nat} (h : v.length % 2 = parity) (f : Unit → Db α) (d : Data) :
    exec (checkParity v parity >>= f) d = exec (f ()) d := by
  rw [checkParity, if_neg (not_not.mpr h)]
  exact exec_bind_ok rfl

theorem exec_eatString_bind {value s : Bytes} (h : x.eatString value = .ok s) (v : Segment)
    (f : Bytes × Segment → Db α) (d : Data) : exec (eatString (x :: v) value >>= f) d = exec (f (s, v)) d := by
  rw [eatString, h]
  exact exec_bind_ok rfl

theorem exec_eatInteger_bind {value n : Int32} (h : x.eatInteger value = .ok n) (v : Segment)
    (f : Int32 × Segment → Db α) (d : Data) : exec (eatInteger (x :: v) value >>= f) d = exec (f (n, v)) d := by
  rw [eatInteger, h]
  exact exec_bind_ok rfl

/-! ### Keys -/

section

variable {τ : Type} {T : KeyClass τ} {name : Bytes}

theorem exec_get_bind (T : KeyClass τ) {t : τ} (h : d.lookup name = some (T.toKey t)) (f : Option τ → Db α) :
    exec (get T.dynamicCast name >>= f) d = exec (f (some t)) d :=
  exec_bind_ok (exec_get_of_lookup h)

theorem exec_get_bind_missing (h : d.lookup name = none) (f : Option τ → Db α) :
    exec (get T.dynamicCast name >>= f) d = exec (f none) d := by
  apply exec_bind_ok
  rw [exec_get_key, h]

theorem exec_get_bind_other {k : Key} (h : d.lookup name = some k) (hcast : T.dynamicCast k = none)
    (f : Option τ → Db α) :
    exec (get T.dynamicCast name >>= f) d = (.error (.thrown (remoteError INVALID_TYPE)), d) := by
  apply exec_bind_error
  rw [exec_get_key, h]
  dsimp only
  rw [hcast]

end

theorem writeBack_list (d : Data) (name : Bytes) (l : List Bytes) :
    writeBack d name (.list l) = if l = [] then d.erase name else d.insert name (.list l) := by
  rw [writeBack]
  by_cases hl : l = []
  · rw [if_neg (show ¬Key.Inhabited (.list l) from not_not.mpr hl), if_pos hl]
  · rw [if_pos (show Key.Inhabited (.list l) from hl), if_neg hl]

theorem writeBack_set (d : Data) (name : Bytes) (m_set : Finset Bytes) :
    writeBack d name (.set m_set) = if m_set = ∅ then d.erase name else d.insert name (.set m_set) := by
  rw [writeBack]
  by_cases hset : m_set = ∅
  · rw [if_neg (show ¬Key.Inhabited (.set m_set) from not_not.mpr hset), if_pos hset]
  · rw [if_pos (show Key.Inhabited (.set m_set) from hset), if_neg hset]

end Afl.Net.Redis
