import Afl.Io.Resp.Integers
import Afl.Io.Resp.Writer

/-!
# Reading back what was written

The writer keeps less than a value holds: numbers and booleans become strings, a hash becomes the vector of its
keys and values, and an error keeps its first line. `normalize` is what remains. `Reads` says that the parser
takes a text for one value and stops right after it, and the round trip is proved along the shape of the value.
-/

namespace Afl.Io.Resp

open Feed

/-! ### What remains of a value -/

mutual

/-- A value as the other side sees it. -/
def normalize : Value → Value
  | .null => .null
  | .string str => .string str
  | .integer iv => .string (decimal iv.toInt)
  | .float text _ => .string text
  | .boolean bv => .string (if bv then lit "1" else lit "0")
  | .hash entries => .vector (normalizeEntries entries)
  | .vector elements => .vector (normalizeElements elements)
  | .error _ str => .error sourceId (str.takeWhile fun c => c ≠ 13 ∧ c ≠ 10)
  | .other => .null

/-- A hash is a flat vector of keys and values. -/
def normalizeEntries : List (Bytes × Value) → Segment
  | [] => []
  | entry :: entries => normalizeEntry entry ++ normalizeEntries entries

def normalizeEntry : Bytes × Value → Segment
  | (key, v) => [.string key, normalize v]

def normalizeElements : List Value → Segment
  | [] => []
  | v :: elements => normalize v :: normalizeElements elements

end

mutual

/-- Every string and every vector that is written has a size below 2^31. -/
def Fits : Value → Prop
  | .null | .integer _ | .boolean _ | .error _ _ | .other => True
  | .string str => str.length < 2 ^ 31
  | .float text _ => text.length < 2 ^ 31
  | .hash entries => 2 * entries.length < 2 ^ 31 ∧ FitsEntries entries
  | .vector elements => elements.length < 2 ^ 31 ∧ FitsElements elements

def FitsEntries : List (Bytes × Value) → Prop
  | [] => True
  | entry :: entries => FitsEntry entry ∧ FitsEntries entries

def FitsEntry : Bytes × Value → Prop
  | (key, v) => key.length < 2 ^ 31 ∧ Fits v

def FitsElements : List Value → Prop
  | [] => True
  | v :: elements => Fits v ∧ FitsElements elements

end

theorem length_normalizeElements (elements : List Value) : (normalizeElements elements).length = elements.length := by
  induction elements with
  | nil => rfl
  | cons v elements ih => rw [normalizeElements, List.length_cons, ih, List.length_cons]

theorem length_normalizeEntries (entries : List (Bytes × Value)) :
    (normalizeEntries entries).length = 2 * entries.length := by
  induction entries with
  | nil => rfl
  | cons entry entries ih =>
    obtain ⟨key, v⟩ := entry
    rw [normalizeEntries, normalizeEntry, List.length_append, ih, List.length_cons]
    simp only [List.length_cons, List.length_nil]
    omega

/-! ### Numbers -/

theorem advance_decimalNat (acceptShort : Bool) (kind : Kind) {n : Nat} (hfit : n < 2 ^ 31) :
    advance (feed acceptShort) (.int kind .virgin 0) (decimalNat n) = some (.int kind .positiveDigits n) := by
  have hdigits : IsDigits (decimalNat n) := ⟨decimalNat_ne_nil n, charIsDigit_of_mem_decimalNat n⟩
  have hvalue : (decimalNat n).foldl (fun n c => 10 * n + (c.toNat - 48)) 0 = n := digitsValue_decimalNat n
  have hlimit : n ≤ IntState.limit false := Nat.le_of_lt_succ hfit
  have hphase : IntState.isNegative .virgin = false := rfl
  have hadvance := IntState.advance_digits acceptShort kind hphase hdigits (hvalue.trans_le hlimit)
  rwa [hvalue] at hadvance

/-! ### One value -/

/-- The parser takes `text` for the value `v` and nothing after it. -/
def Reads (acceptShort : Bool) (s : State) (text : Bytes) (v : Value) : Prop :=
  run (feed acceptShort) s text = .done v []

theorem Reads.append {acceptShort : Bool} {s : State} {text : Bytes} {v : Value}
    (h : Reads acceptShort s text v) (rest : Bytes) :
    run (feed acceptShort) s (text ++ rest) = .done v rest := by
  rw [run_append, h]
  rfl

theorem run_size (acceptShort : Bool) (kind : Kind) {n : Nat} (hfit : n < 2 ^ 31) (text : Bytes) :
    run (feed acceptShort) (.int kind .virgin 0) (decimalNat n ++ Writer.crlf ++ text) =
      match IntState.finish kind n with
      | .next s => run (feed acceptShort) s text
      | .done v => .done v text
      | .fail => .fail (.int kind .positiveDigits n) text := by
  rw [List.append_assoc, run_of_advance (advance_decimalNat acceptShort kind hfit)]
  change run (feed acceptShort) _ (13 :: 10 :: text) = _
  have hcr : feed acceptShort (.int kind .positiveDigits n) 13 = .next (.int kind .positiveDigits n) := by
    simp [feed_int]
  have hlf : feed acceptShort (.int kind .positiveDigits n) 10 = IntState.finish kind n := by
    simp [feed_int]
  rw [run_cons_next hcr, run, hlf]
  rcases IntState.finish kind n <;> rfl

theorem advance_bulk (acceptShort : Bool) (value str : Bytes) :
    advance (feed acceptShort) (.bulk str.length value) str = some (.bulk 0 (value ++ str)) := by
  induction str generalizing value with
  | nil => simp [advance]
  | cons ch str ih =>
    rw [List.length_cons, advance_cons_next rfl, ih, List.append_assoc]
    rfl

theorem reads_string (acceptShort : Bool) {str : Bytes} (hfit : str.length < 2 ^ 31) :
    Reads acceptShort .root (Writer.visitString str) (.string str) := by
  have hroot : feed acceptShort .root 36 = .next (.int .bulk .virgin 0) := rfl
  have hfinish : IntState.finish .bulk str.length = .next (.bulk str.length []) := by
    simp [IntState.finish]
  have htext : Writer.visitString str = 36 :: (decimalNat str.length ++ Writer.crlf ++ (str ++ Writer.crlf)) := by
    simp [Writer.visitString, lit]
  rw [Reads, htext, run_cons_next hroot, run_size acceptShort .bulk hfit, hfinish]
  simp only
  rw [run_of_advance (advance_bulk acceptShort [] str), List.nil_append]
  rfl

theorem advance_line (acceptShort success : Bool) (value : Bytes) {line : Bytes}
    (hline : ∀ c ∈ line, c ≠ 13 ∧ c ≠ 10) :
    advance (feed acceptShort) (.string success value) line = some (.string success (value ++ line)) := by
  induction line generalizing value with
  | nil => simp [advance]
  | cons c line ih =>
    obtain ⟨hc, hrest⟩ := List.forall_mem_cons.mp hline
    have hfeed : feed acceptShort (.string success value) c = .next (.string success (value ++ [c])) := by
      rw [feed_string, if_neg hc.1, if_neg hc.2]
    rw [advance_cons_next hfeed, ih _ hrest, List.append_assoc]
    rfl

theorem reads_error (acceptShort : Bool) (str : Bytes) :
    Reads acceptShort .root (Writer.visitError str)
      (.error sourceId (str.takeWhile fun c => c ≠ 13 ∧ c ≠ 10)) := by
  have hline : ∀ c ∈ str.takeWhile (fun c => c ≠ 13 ∧ c ≠ 10), c ≠ 13 ∧ c ≠ 10 := by
    intro c hc
    simpa using (List.all_eq_true.mp List.all_takeWhile) c hc
  have hroot : feed acceptShort .root 45 = .next (.string false []) := rfl
  have htext : Writer.visitError str =
      45 :: (str.takeWhile (fun c => c ≠ 13 ∧ c ≠ 10) ++ Writer.crlf) := by
    simp [Writer.visitError, lit]
  rw [Reads, htext, run_cons_next hroot, run_of_advance (advance_line acceptShort false [] hline), List.nil_append]
  rfl

/-! ### Containers -/

/-- The parser takes `text` for the elements `vs`, one after the other. -/
inductive ReadsAll : Bytes → Segment → Prop
  | nil : ReadsAll [] []
  | cons {text texts : Bytes} {v : Value} {vs : Segment} :
    Reads false .root text v → ReadsAll texts vs → ReadsAll (text ++ texts) (v :: vs)

theorem ReadsAll.append {text texts : Bytes} {vs ws : Segment} (h : ReadsAll text vs) (hs : ReadsAll texts ws) :
    ReadsAll (text ++ texts) (vs ++ ws) := by
  induction h with
  | nil => exact hs
  | cons hv _ ih =>
    rw [List.append_assoc]
    exact ReadsAll.cons hv ih

theorem ReadsAll.run_array {text : Bytes} {vs : Segment} (h : ReadsAll text vs) (acceptShort : Bool)
    (size : Nat) (hsize : 0 < size) (hlength : vs.length = size) (value : Segment) :
    Reads acceptShort (.array size hsize value .root) text (.vector (value ++ vs)) := by
  induction h generalizing size value with
  | nil => simp at hlength; omega
  | @cons text texts v vs hv hvs ih =>
    rw [List.length_cons] at hlength
    rw [Reads, Resp.run_array, hv.append texts]
    simp only
    split_ifs with hlast
    · obtain rfl : vs = [] := List.eq_nil_of_length_eq_zero (by omega)
      cases hvs
      rfl
    · have hrest := ih (size - 1) (by omega) (by omega) (value ++ [v])
      rwa [List.append_assoc] at hrest

theorem ReadsAll.vector {text : Bytes} {vs : Segment} (h : ReadsAll text vs) (acceptShort : Bool)
    (hfit : vs.length < 2 ^ 31) :
    Reads acceptShort .root (Writer.arrayHeader vs.length ++ text) (.vector vs) := by
  have hroot : feed acceptShort .root 42 = .next (.int .array .virgin 0) := rfl
  have htext : Writer.arrayHeader vs.length ++ text = 42 :: (decimalNat vs.length ++ Writer.crlf ++ text) := by
    simp [Writer.arrayHeader, lit]
  rw [Reads, htext, run_cons_next hroot, run_size acceptShort .array hfit]
  rcases Nat.eq_zero_or_pos vs.length with hzero | hpos
  · obtain rfl := List.eq_nil_of_length_eq_zero hzero
    cases h
    rfl
  · have hfinish : IntState.finish .array vs.length = .next (.array vs.length hpos [] .root) := by
      have hneg : ¬(vs.length : Int) < 0 := by omega
      have hne : ¬(vs.length : Int) = 0 := by omega
      rw [IntState.finish, if_neg hneg, dif_neg hne]
      rfl
    rw [hfinish]
    exact h.run_array acceptShort vs.length hpos rfl []

/-! ### The round trip -/

theorem length_decimalNat_le (n : Nat) : (decimalNat n).length ≤ n / 10 + 1 := by
  refine decimalNat_induction (P := fun n text => text.length ≤ n / 10 + 1) ?_ ?_ n
  · intro n _
    simp
  · intro n hn ih
    rw [List.length_append, List.length_singleton]
    omega

theorem length_decimal_lt (iv : Int32) : (decimal iv.toInt).length < 2 ^ 31 := by
  have hle := length_decimalNat_le iv.toInt.natAbs
  have hlower := iv.le_toInt
  have hupper := iv.toInt_lt
  rw [decimal]
  split_ifs
  · have hsign : (lit "-").length = 1 := by decide
    rw [List.length_append, hsign]
    omega
  · omega

mutual

theorem reads_visit (acceptShort : Bool) : ∀ v, Fits v → Reads acceptShort .root (Writer.visit v) (normalize v)
  | .null, _ => rfl
  | .other, _ => rfl
  | .string str, hfit => reads_string acceptShort hfit
  | .integer iv, _ => reads_string acceptShort (length_decimal_lt iv)
  | .float text _, hfit => reads_string acceptShort hfit
  | .boolean bv, _ => reads_string acceptShort (by cases bv <;> decide)
  | .error _ str, _ => reads_error acceptShort str
  | .hash entries, hfit => by
    have hall := readsAll_entries entries hfit.2
    rw [Writer.visit, normalize, ← length_normalizeEntries]
    refine hall.vector acceptShort ?_
    rw [length_normalizeEntries]
    exact hfit.1
  | .vector elements, hfit => by
    have hall := readsAll_elements elements hfit.2
    rw [Writer.visit, normalize, ← length_normalizeElements]
    refine hall.vector acceptShort ?_
    rw [length_normalizeElements]
    exact hfit.1

theorem readsAll_entries : ∀ entries, FitsEntries entries →
    ReadsAll (Writer.visitEntries entries) (normalizeEntries entries)
  | [], _ => .nil
  | entry :: entries, hfit => by
    rw [Writer.visitEntries, normalizeEntries]
    exact (readsAll_entry entry hfit.1).append (readsAll_entries entries hfit.2)

theorem readsAll_entry : ∀ entry, FitsEntry entry → ReadsAll (Writer.visitEntry entry) (normalizeEntry entry)
  | (key, v), hfit => by
    have hvalue : ReadsAll (Writer.visit v ++ []) [normalize v] := .cons (reads_visit false v hfit.2) .nil
    rw [List.append_nil] at hvalue
    rw [Writer.visitEntry, normalizeEntry]
    exact .cons (reads_string false hfit.1) hvalue

theorem readsAll_elements : ∀ elements, FitsElements elements →
    ReadsAll (Writer.visitElements elements) (normalizeElements elements)
  | [], _ => .nil
  | v :: elements, hfit => by
    rw [Writer.visitElements, normalizeElements]
    exact .cons (reads_visit false v hfit.1) (readsAll_elements elements hfit.2)

end

/-- **Round trip.** What the writer writes for a value is one complete value for the parser, up to the normal form,
and the parser stops right after it. -/
theorem handleData_visit (acceptShort : Bool) (v : Value) (rest : Bytes) (hfit : Fits v) :
    Parser.handleData acceptShort .root (Writer.visit v ++ rest) = .done (normalize v) rest := by
  rw [handleData_eq_run]
  exact (reads_visit acceptShort v hfit).append rest

/-- A hash with an empty vector and an error of two lines, followed by the start of another value. -/
theorem handleData_visit_hash :
    let v : Value := .hash [(lit "a", .vector []), ([], .vector [.integer (-7), .error [] (lit "no\nmore"), .null])]
    Fits v ∧ Parser.handleData false .root (Writer.visit v ++ lit "*1") = .done
      (.vector [.string (lit "a"), .vector [], .string [],
        .vector [.string (lit "-7"), .error sourceId (lit "no"), .null]]) (lit "*1") := by
  intro v
  have hfit : Fits v := by
    simp only [v, Fits, FitsEntries, FitsEntry, FitsElements]
    decide
  exact ⟨hfit, handleData_visit false v (lit "*1") hfit⟩

end Afl.Io.Resp
