import Afl.Lib.Machine
import Afl.Net.Redis.Commands

/-!
# Counters

`INCR`, `DECR`, `INCRBY`, `DECRBY` and `HINCRBY` change a number in a string or in a field of a hash. The specification
of a counter is an integer; the commands compute in 32 bits, and leave the defined behaviour of C++ where that does not
suffice.
-/

namespace Afl.Net.Redis

open Exec Machine

/-! ### The number in a text -/

/-- What `storedInteger` finds in a text. -/
def number (s : Bytes) : Option Int := if s = [] then some 0 else (strToInt32 s).map Int32.toInt

theorem number_decimal (n : Int32) : number (decimal n.toInt) = some n.toInt := by
  have hne : decimal n.toInt ≠ [] := by
    intro h
    have hparse := strToInt32_decimal n
    rw [h] at hparse
    cases hparse
  rw [number, if_neg hne, strToInt32_decimal]
  rfl

theorem exec_storedInteger_some {s : Bytes} {old : Int} (h : number s = some old) (d : Data) :
    ∃ n : Int32, n.toInt = old ∧ exec (storedInteger s) d = (.ok n, d) := by
  rw [number] at h
  rw [storedInteger]
  split_ifs at h ⊢
  · cases h
    exact ⟨0, rfl, rfl⟩
  · obtain ⟨n, hn, rfl⟩ := Option.map_eq_some_iff.mp h
    rw [hn]
    exact ⟨n, rfl, rfl⟩

theorem exec_storedInteger_none {s : Bytes} (h : number s = none) (d : Data) :
    s ≠ [] ∧ exec (storedInteger s) d = (.error (.thrown (remoteError INVALID_TYPE_INT)), d) := by
  rw [number] at h
  rw [storedInteger]
  split_ifs at h ⊢ with hs
  rw [Option.map_eq_none_iff.mp h]
  exact ⟨hs, rfl⟩

/-- A sum that fits into 32 bits. -/
def Fits (i : Int) : Prop := -2 ^ 31 ≤ i ∧ i < 2 ^ 31

instance (i : Int) : Decidable (Fits i) := inferInstanceAs (Decidable (_ ∧ _))

theorem exec_checked {i : Int} (h : Fits i) (d : Data) :
    (Int32.ofInt i).toInt = i ∧ exec (checked i) d = (.ok (Int32.ofInt i), d) := by
  refine ⟨Int32.toInt_ofInt_of_le h.1 h.2, ?_⟩
  rw [checked, if_pos (show -2 ^ 31 ≤ i ∧ i < 2 ^ 31 from h)]
  rfl

theorem exec_checked_error {i : Int} (h : ¬Fits i) (d : Data) : exec (checked i) d = (.error .undefined, d) := by
  rw [checked, if_neg (show ¬(-2 ^ 31 ≤ i ∧ i < 2 ^ 31) from h)]
  rfl

theorem exec_sum (s : Bytes) (delta : Int) (f : Int32 → Db Value) (d : Data) :
    exec (storedInteger s >>= fun intVal => checked (intVal.toInt + delta) >>= f) d =
      match number s with
      | none => (.error (.thrown (remoteError INVALID_TYPE_INT)), d)
      | some old =>
        if Fits (old + delta) then exec (f (Int32.ofInt (old + delta))) d else (.error .undefined, d) := by
  cases hnumber : number s with
  | none => exact exec_bind_error (exec_storedInteger_none hnumber d).2
  | some old =>
    obtain ⟨n, rfl, hstored⟩ := exec_storedInteger_some hnumber d
    rw [exec_bind_ok hstored]
    dsimp only
    split_ifs with hfits
    · exact exec_bind_ok (exec_checked hfits d).2
    · exact exec_bind_error (exec_checked_error hfits d)

/-! ### Counters -/

/-- A string, or a field of a hash. -/
structure Place where
  key : Bytes
  field : Option Bytes
deriving DecidableEq

/-- The text at a place, and none where the key has another type. What is missing reads as empty. -/
def Place.text (p : Place) (d : Data) : Option Bytes :=
  match d.lookup p.key, p.field with
  | none, _ => some []
  | some (.string s), none => some s
  | some (.hash h), some field => some ((h.lookup field).getD [])
  | some _, _ => none

def Place.value (p : Place) (d : Data) : Option Int := (p.text d).bind number

/-- The database with a text written at a place that has the type for it. -/
def Place.put (p : Place) (d : Data) (s : Bytes) : Data :=
  match p.field with
  | none => d.insert p.key (.string s)
  | some field =>
    match d.lookup p.key with
    | some (.hash h) => d.insert p.key (.hash (h.insert field s))
    | _ => d.insert p.key (.hash (Finmap.insert field s ∅))

theorem Place.text_put_self {p : Place} {d : Data} (h : p.text d ≠ none) (s : Bytes) : p.text (p.put d s) = some s := by
  obtain ⟨key, _ | field⟩ := p
  · simp only [Place.text, Place.put, Finmap.lookup_insert]
  · cases hkey : d.lookup key with
    | none => simp only [Place.text, Place.put, hkey, Finmap.lookup_insert, Option.getD_some]
    | some k =>
      cases k with
      | hash m_hash => simp only [Place.text, Place.put, hkey, Finmap.lookup_insert, Option.getD_some]
      | string _ | list _ | set _ => exact absurd (by simp only [Place.text, hkey]) h

theorem Place.text_put_of_ne {p q : Place} (hne : p ≠ q) {d : Data} (h : q.text d ≠ none) {s t : Bytes}
    (ht : p.text (q.put d s) = some t) : p.text d = some t := by
  obtain ⟨key, field⟩ := p
  obtain ⟨key', field'⟩ := q
  by_cases hkeys : key = key'
  · subst hkeys
    cases field' with
    | none =>
      cases field with
      | none => exact absurd rfl hne
      | some field => simp [Place.text, Place.put, Finmap.lookup_insert] at ht
    | some field' =>
      cases field with
      | none =>
        cases hkey : d.lookup key with
        | none => simp [Place.text, Place.put, hkey, Finmap.lookup_insert] at ht
        | some k => cases k <;> simp_all [Place.text, Place.put, Finmap.lookup_insert]
      | some field =>
        have hfields : field ≠ field' := fun hfields => hne (by rw [hfields])
        cases hkey : d.lookup key with
        | none =>
          simpa [Place.text, Place.put, hkey, Finmap.lookup_insert, Finmap.lookup_insert_of_ne _ hfields] using ht
        | some k =>
          cases k with
          | hash m_hash =>
            simpa [Place.text, Place.put, hkey, Finmap.lookup_insert, Finmap.lookup_insert_of_ne _ hfields] using ht
          | string _ | list _ | set _ => exact absurd (by simp only [Place.text, hkey]) h
  · have hlookup : (Place.put ⟨key', field'⟩ d s).lookup key = d.lookup key := by
      cases field' with
      | none => exact Finmap.lookup_insert_of_ne _ hkeys
      | some field' =>
        simp only [Place.put]
        split <;> exact Finmap.lookup_insert_of_ne _ hkeys
    rw [← ht]
    simp only [Place.text, hlookup]

/-- A command for a counter, with its arguments. -/
inductive Counter
  | incr (key : Bytes)
  | decr (key : Bytes)
  | incrby (key : Bytes) (delta : Int32)
  | decrby (key : Bytes) (delta : Int32)
  | hincrby (key field : Bytes) (delta : Int32)
deriving DecidableEq

namespace Counter

def place : Counter → Place
  | incr key | decr key | incrby key _ | decrby key _ => ⟨key, none⟩
  | hincrby key field _ => ⟨key, some field⟩

def delta : Counter → Int
  | incr _ => 1
  | decr _ => -1
  | incrby _ delta | hincrby _ _ delta => delta.toInt
  | decrby _ delta => -delta.toInt

def verb : Counter → Verb
  | incr _ => .incr
  | decr _ => .decr
  | incrby _ _ => .incrby
  | decrby _ _ => .decrby
  | hincrby _ _ _ => .hincrby

/-- Values that are read as the arguments. -/
def Reads : Counter → Segment → Prop
  | incr key, v | decr key, v => ∃ x, v = [x] ∧ x.eatString [] = .ok key
  | incrby key delta, v | decrby key delta, v =>
    ∃ x y, v = [x, y] ∧ x.eatString [] = .ok key ∧ y.eatInteger 0 = .ok delta
  | hincrby key field delta, v =>
    ∃ x y z, v = [x, y, z] ∧ x.eatString [] = .ok key ∧ y.eatString [] = .ok field ∧ z.eatInteger 0 = .ok delta

end Counter

/-! ### What the commands do -/

/-- What a command that adds a number at a place does. -/
def Adds (m : Db Value) (p : Place) (delta : Int) (d : Data) : Prop :=
  match p.value d with
  | none => ∃ e, exec m d = (.error (.thrown e), d)
  | some old =>
    if Fits (old + delta) then
      exec m d = (.ok (.integer (Int32.ofInt (old + delta))), p.put d (decimal (old + delta)))
    else ∃ d', exec m d = (.error .undefined, d')

theorem Adds.congr {m m' : Db Value} {p : Place} {delta : Int} {d : Data} (h : Adds m p delta d)
    (heq : exec m' d = exec m d) : Adds m' p delta d := by
  rw [Adds, heq]
  exact h

theorem adds_modifyString (key : Bytes) (delta : Int32) (d : Data) :
    Adds (modifyString key delta) ⟨key, none⟩ delta.toInt d := by
  have hstring : ∀ {s}, d.lookup key = some (.string s) ∨ d.lookup key = none ∧ s = [] →
      Place.text ⟨key, none⟩ d = some s → Adds (modifyString key delta) ⟨key, none⟩ delta.toInt d := by
    intro s hs htext
    have hcreate : exec (getCreate .string key) d = (.ok s, d.insert key (.string s)) := exec_getCreate hs
    have hvalue : Place.value ⟨key, none⟩ d = number s := by rw [Place.value, htext, Option.bind_some]
    rw [Adds, modifyString, hvalue, exec_bind_ok hcreate, exec_sum]
    cases hnumber : number s with
    | none =>
      -- the key was there
      obtain hkey | ⟨-, rfl⟩ := hs
      · exact ⟨_, by rw [Finmap.insert_of_lookup hkey]⟩
      · cases hnumber
    | some old =>
      dsimp only
      split_ifs with hfits
      · rw [exec_bind_ok (exec_store _ _ _ _), (exec_checked hfits d).1, Finmap.insert_insert]
        rfl
      · exact ⟨_, rfl⟩
  have hother : ∀ {k}, d.lookup key = some k → KeyClass.string.dynamicCast k = none →
      Place.text ⟨key, none⟩ d = none → Adds (modifyString key delta) ⟨key, none⟩ delta.toInt d := by
    intro k hkey hcast htext
    have hvalue : Place.value ⟨key, none⟩ d = none := by rw [Place.value, htext, Option.bind_none]
    rw [Adds, hvalue]
    exact ⟨_, exec_bind_error (exec_getCreate_error hkey hcast)⟩
  cases hkey : d.lookup key with
  | none => exact hstring (.inr ⟨hkey, rfl⟩) (by simp only [Place.text, hkey])
  | some k =>
    cases k with
    | string s => exact hstring (.inl hkey) (by simp only [Place.text, hkey])
    | hash _ | list _ | set _ => exact hother hkey rfl (by simp only [Place.text, hkey])

theorem adds_execHincrby {x y z : Value} {key field : Bytes} {delta : Int32} (hkey : x.eatString [] = .ok key)
    (hfield : y.eatString [] = .ok field) (hdelta : z.eatInteger 0 = .ok delta) (d : Data) :
    Adds (execHincrby [x, y, z]) ⟨key, some field⟩ delta.toInt d := by
  have hhash : ∀ {m_hash}, d.lookup key = some (.hash m_hash) ∨ d.lookup key = none ∧ m_hash = ∅ →
      Place.text ⟨key, some field⟩ d = some ((m_hash.lookup field).getD []) →
      (∀ s, Place.put ⟨key, some field⟩ d s = d.insert key (.hash (m_hash.insert field s))) →
      Adds (execHincrby [x, y, z]) ⟨key, some field⟩ delta.toInt d := by
    intro m_hash hstored htext hput
    have hcreate : exec (getCreate .hash key) d = (.ok m_hash, d.insert key (.hash m_hash)) := exec_getCreate hstored
    have hvalue : Place.value ⟨key, some field⟩ d = number ((m_hash.lookup field).getD []) := by
      rw [Place.value, htext, Option.bind_some]
    simp only [Adds, hvalue, hput, execHincrby, exec_checkArgumentCount_bind (show [x, y, z].length = 3 from rfl),
      exec_eatString_bind hkey, exec_eatString_bind hfield, exec_eatInteger_bind hdelta, exec_bind_ok hcreate,
      exec_bind_ok (exec_store _ _ _ _), exec_sum, hash_toKey, Finmap.insert_insert]
    cases hnumber : number ((m_hash.lookup field).getD []) with
    | none =>
      -- the field was there, and so was the key
      cases hlookup : m_hash.lookup field with
      | none =>
        rw [hlookup] at hnumber
        cases hnumber
      | some s =>
        obtain hstored | ⟨-, rfl⟩ := hstored
        · exact ⟨_, by rw [Option.getD_some, Finmap.insert_of_lookup hlookup, Finmap.insert_of_lookup hstored]⟩
        · cases hlookup
    | some old =>
      dsimp only
      split_ifs with hfits
      · rw [(exec_checked hfits d).1]
        rfl
      · exact ⟨_, rfl⟩
  have hother : ∀ {k}, d.lookup key = some k → KeyClass.hash.dynamicCast k = none →
      Place.text ⟨key, some field⟩ d = none → Adds (execHincrby [x, y, z]) ⟨key, some field⟩ delta.toInt d := by
    intro k hlookup hcast htext
    have hvalue : Place.value ⟨key, some field⟩ d = none := by rw [Place.value, htext, Option.bind_none]
    simp only [Adds, hvalue, execHincrby, exec_checkArgumentCount_bind (show [x, y, z].length = 3 from rfl),
      exec_eatString_bind hkey, exec_eatString_bind hfield, exec_eatInteger_bind hdelta,
      exec_bind_error (exec_getCreate_error hlookup hcast)]
    exact ⟨_, rfl⟩
  cases hlookup : d.lookup key with
  | none =>
    exact hhash (.inr ⟨hlookup, rfl⟩) (by simp only [Place.text, hlookup, Finmap.lookup_empty, Option.getD_none])
      fun s => by simp only [Place.put, hlookup]
  | some k =>
    cases k with
    | hash m_hash =>
      exact hhash (.inl hlookup) (by simp only [Place.text, hlookup]) fun s => by simp only [Place.put, hlookup]
    | string _ | list _ | set _ => exact hother hlookup rfl (by simp only [Place.text, hlookup])

/-- The smallest number has no opposite. -/
def Counter.NoOpposite (c : Counter) : Prop := c.verb = .decrby ∧ c.delta = 2 ^ 31

/-- The sum does not fit, or the number to subtract has no opposite. -/
def Counter.Overflows (c : Counter) (d : Data) : Prop :=
  c.NoOpposite ∨ ∃ old, c.place.value d = some old ∧ ¬Fits (old + c.delta)

theorem adds_executeVerb (S : StdSort) (rand : Nat) {c : Counter} {v : Segment} (hv : c.Reads v)
    (h : ¬c.NoOpposite) (d : Data) : Adds (executeVerb S rand c.verb v) c.place c.delta d := by
  cases c with
  | incr key =>
    obtain ⟨x, rfl, hkey⟩ := hv
    refine (adds_modifyString key 1 d).congr ?_
    simp only [Counter.verb, executeVerb, execIncr, exec_checkArgumentCount_bind (show [x].length = 1 from rfl),
      exec_eatString_bind hkey]
  | decr key =>
    obtain ⟨x, rfl, hkey⟩ := hv
    refine (adds_modifyString key (-1) d).congr ?_
    simp only [Counter.verb, executeVerb, execDecr, exec_checkArgumentCount_bind (show [x].length = 1 from rfl),
      exec_eatString_bind hkey]
  | incrby key delta =>
    obtain ⟨x, y, rfl, hkey, hdelta⟩ := hv
    refine (adds_modifyString key delta d).congr ?_
    simp only [Counter.verb, executeVerb, execIncrby, exec_checkArgumentCount_bind (show [x, y].length = 2 from rfl),
      exec_eatString_bind hkey, exec_eatInteger_bind hdelta]
  | decrby key delta =>
    obtain ⟨x, y, rfl, hkey, hdelta⟩ := hv
    have hopposite : Fits (-delta.toInt) := by
      have hrange := delta.toInt_lt
      have hrange' := delta.le_toInt
      have hmin : -delta.toInt ≠ 2 ^ 31 := fun hmin => h ⟨rfl, hmin⟩
      exact ⟨by omega, by omega⟩
    obtain ⟨hvalue, hchecked⟩ := exec_checked hopposite d
    have hadds := adds_modifyString key (Int32.ofInt (-delta.toInt)) d
    rw [hvalue] at hadds
    refine hadds.congr ?_
    simp only [Counter.verb, executeVerb, execDecrby, exec_checkArgumentCount_bind (show [x, y].length = 2 from rfl),
      exec_eatString_bind hkey, exec_eatInteger_bind hdelta, exec_bind_ok hchecked]
  | hincrby key field delta =>
    obtain ⟨x, y, z, rfl, hkey, hfield, hdelta⟩ := hv
    exact adds_execHincrby hkey hfield hdelta d

theorem exec_executeVerb_of_overflows (S : StdSort) (rand : Nat) {c : Counter} {v : Segment} (hv : c.Reads v) {d : Data}
    (h : c.Overflows d) : ∃ d', exec (executeVerb S rand c.verb v) d = (.error .undefined, d') := by
  by_cases hopposite : c.NoOpposite
  · obtain ⟨hverb, hdelta⟩ := hopposite
    cases c with
    | decrby key delta =>
      obtain ⟨x, y, rfl, hkey, hy⟩ := hv
      have hfits : ¬Fits (-delta.toInt) := fun hfits => by
        have hlt := hfits.2
        rw [show -delta.toInt = 2 ^ 31 from hdelta] at hlt
        exact lt_irrefl _ hlt
      refine ⟨d, ?_⟩
      simp only [Counter.verb, executeVerb, execDecrby, exec_checkArgumentCount_bind (show [x, y].length = 2 from rfl),
        exec_eatString_bind hkey, exec_eatInteger_bind hy, exec_bind_error (exec_checked_error hfits d)]
    | incr _ | decr _ | incrby _ _ | hincrby _ _ _ => cases hverb
  · obtain ⟨old, hold, hfits⟩ := h.resolve_left hopposite
    have hadds := adds_executeVerb S rand hv hopposite d
    rw [Adds, hold] at hadds
    dsimp only at hadds
    rw [if_neg hfits] at hadds
    exact hadds

/-! ### Exact counters -/

/-- It fails and changes nothing, or the exact sum is stored and returned. -/
def Counter.Exact (c : Counter) (d : Data) (r : Except Failure Value × Data) : Prop :=
  (c.place.value d = none ∧ ∃ e, r = (.error (.thrown e), d)) ∨
    ∃ (old : Int) (sum : Int32), c.place.value d = some old ∧ sum.toInt = old + c.delta ∧
      r = (.ok (.integer sum), c.place.put d (decimal sum.toInt))

/-- A command for a counter, with the values its arguments are read from. -/
structure CounterCall where
  counter : Counter
  args : Segment
  reads : counter.Reads args
  rand : Nat

def countStep (S : StdSort) (d : Data) (c : CounterCall) : Except Failure Value × Data :=
  exec (call S c.rand (.string c.counter.verb.text :: c.args)) d

theorem countStep_exact_iff (S : StdSort) (c : CounterCall) (d : Data) :
    c.counter.Exact d (countStep S d c) ↔ ¬c.counter.Overflows d := by
  constructor
  · intro hexact hoverflows
    obtain ⟨d', hundefined⟩ := exec_executeVerb_of_overflows S c.rand c.reads hoverflows
    rw [countStep, exec_call, hundefined] at hexact
    obtain ⟨-, e, h⟩ | ⟨old, sum, -, -, h⟩ := hexact
    · cases h
    · cases h
  · intro hoverflows
    have hadds := adds_executeVerb S c.rand c.reads (fun h => hoverflows (.inl h)) d
    rw [Adds] at hadds
    cases hvalue : c.counter.place.value d with
    | none =>
      rw [hvalue] at hadds
      obtain ⟨e, hthrown⟩ := hadds
      exact .inl ⟨hvalue, exec_call_thrown hthrown⟩
    | some old =>
      have hfits : Fits (old + c.counter.delta) := by
        by_contra hfits
        exact hoverflows (.inr ⟨old, hvalue, hfits⟩)
      rw [hvalue] at hadds
      dsimp only at hadds
      rw [if_pos hfits] at hadds
      have hsum := (exec_checked hfits d).1
      refine .inr ⟨old, _, hvalue, hsum, ?_⟩
      rw [hsum]
      exact exec_call_ok hadds

/-- What a counter has after an exact command, it had before it, but for what the command added. -/
theorem Counter.Exact.value {c : Counter} {d : Data} {r : Except Failure Value × Data} (h : c.Exact d r) {p : Place}
    {v : Int} (hv : p.value r.2 = some v) :
    ∃ old, p.value d = some old ∧ v = old + if c.place = p then c.delta else 0 := by
  obtain ⟨hnone, e, rfl⟩ | ⟨old, sum, hold, hsum, rfl⟩ := h
  · have hne : c.place ≠ p := by
      rintro rfl
      rw [hnone] at hv
      cases hv
    exact ⟨v, hv, by rw [if_neg hne, add_zero]⟩
  · have htext : c.place.text d ≠ none := by
      intro hnone
      rw [Place.value, hnone] at hold
      cases hold
    by_cases hplace : c.place = p
    · subst hplace
      rw [Place.value, Place.text_put_self htext, Option.bind_some, number_decimal] at hv
      cases hv
      exact ⟨old, hold, by rw [if_pos rfl, hsum]⟩
    · obtain ⟨t, ht, hnumber⟩ := Option.bind_eq_some_iff.mp hv
      refine ⟨v, ?_, by rw [if_neg hplace, add_zero]⟩
      rw [Place.value, Place.text_put_of_ne (Ne.symm hplace) htext ht, Option.bind_some, hnumber]

/-- What a list of commands adds at a place. -/
def added (p : Place) (calls : List CounterCall) : Int :=
  ((calls.filter fun c => c.counter.place = p).map fun c => c.counter.delta).sum

/-- **Redis counters are exact** as long as no command overflows: each fails without changing anything, or stores and
returns the exact sum, and a counter then has what was added to it in all. The commands compute in `int32_t`, and an
overflow is undefined behaviour. -/
theorem counters_exact_iff (S : StdSort) (calls : List CounterCall) (d : Data) :
    ((∀ before c rest, calls = before ++ c :: rest →
        c.counter.Exact (after (countStep S) d before) (countStep S (after (countStep S) d before) c)) ↔
      ∀ before c rest, calls = before ++ c :: rest → ¬c.counter.Overflows (after (countStep S) d before)) ∧
    ((∀ before c rest, calls = before ++ c :: rest → ¬c.counter.Overflows (after (countStep S) d before)) →
      ∀ p v, p.value (after (countStep S) d calls) = some v →
        ∃ old, p.value d = some old ∧ v = old + added p calls) := by
  refine ⟨?_, ?_⟩
  · simp only [countStep_exact_iff]
  · intro h p v hv
    induction calls generalizing d with
    | nil => exact ⟨v, hv, (add_zero v).symm⟩
    | cons c calls ih =>
      have hexact := (countStep_exact_iff S c d).mpr (h [] c calls rfl)
      obtain ⟨mid, hmid, rfl⟩ := ih (countStep S d c).2 (fun before c' rest hcalls =>
        h (c :: before) c' rest (by rw [hcalls, List.cons_append])) hv
      obtain ⟨old, hold, rfl⟩ := hexact.value hmid
      refine ⟨old, hold, ?_⟩
      rw [added, added]
      by_cases hplace : c.counter.place = p
      · rw [if_pos hplace, List.filter_cons_of_pos (by simpa using hplace), List.map_cons, List.sum_cons, add_assoc]
      · rw [if_neg hplace, List.filter_cons_of_neg (by simpa using hplace), add_zero]

/-- `INCR` of the largest number. -/
theorem incr_overflows :
    ¬Counter.Exact (.incr (lit "k")) ((∅ : Data).insert (lit "k") (.string (decimal (2 ^ 31 - 1))))
      (exec (call .insertion 0 [.string (lit "INCR"), .string (lit "k")])
        ((∅ : Data).insert (lit "k") (.string (decimal (2 ^ 31 - 1))))) := by
  intro hexact
  refine (countStep_exact_iff .insertion ⟨.incr (lit "k"), [.string (lit "k")], ⟨_, rfl, rfl⟩, 0⟩ _).mp hexact
    (.inr ⟨2 ^ 31 - 1, ?_, by decide⟩)
  have htext : Place.text ⟨lit "k", none⟩ ((∅ : Data).insert (lit "k") (.string (decimal (2 ^ 31 - 1)))) =
      some (decimal (2 ^ 31 - 1)) := by
    simp only [Place.text, Finmap.lookup_insert]
  rw [Place.value, Counter.place, htext]
  exact number_decimal 2147483647

end Afl.Net.Redis
