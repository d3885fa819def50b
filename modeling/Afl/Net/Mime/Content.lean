import Afl.Net.Mime.Builder
import Mathlib.Data.List.Induction

/-!
# The content of a MIME entity

What the calls of a `MimeBuilder` add is found in its output, in the order of the calls, as long as no base64 data is held
back.
-/

namespace Afl.Net

open Charset

/-- A call that adds to the content. -/
inductive Call
  | addHeader (name value : Bytes)
  | addLine (line : Bytes)
  | addLineQP (line : Bytes)
  | addRawData (data : Bytes)
  | addBase64 (data : Bytes)
  | addBoundary
deriving DecidableEq

namespace MimeBuilder

def call (b : MimeBuilder) : Call → MimeBuilder
  | .addHeader name value => b.addHeader name value
  | .addLine line => b.addLine line
  | .addLineQP line => b.addLineQP line
  | .addRawData data => b.addRawData data
  | .addBase64 data => b.addBase64 data
  | .addBoundary => b.addBoundary

def run (ctype : Bytes) (calls : List Call) : MimeBuilder := calls.foldl call (create ctype)

theorem run_concat (ctype : Bytes) (calls : List Call) (c : Call) :
    run ctype (calls ++ [c]) = (run ctype calls).call c := by
  rw [run, List.foldl_append]
  rfl

end MimeBuilder

open MimeBuilder

/-! ### What is to be found -/

def Call.text : Call → Option Bytes
  | .addHeader name value => some (name ++ [58, 32] ++ value ++ CRLF)
  | .addLine line => some (line ++ CRLF)
  | .addLineQP line => some ((line.splitOn 10).flatMap fun l => QuotedPrintable.encode l ++ CRLF)
  | .addRawData data => some data
  | .addBase64 _ => none
  | .addBoundary => none

/-- The elements hold the content of the calls, in their order. The bytes have been given to `addBase64` and are still to
come; no other content may come before them. A line of base64 data decodes to the next of them (`Base64.decode_of_encode`).
Line ends may be added anywhere, and one boundary stands for several calls in a row. -/
inductive Holds : List Call → List Element → Bytes → Prop
  | start : Holds [] [] []
  | contentType {t : Bytes} : Holds [] [⟨t, .contentTypeElement⟩] []
  | lineEnd {calls : List Call} {es : List Element} {held : Bytes} (h : Holds calls es held) :
    Holds calls (es ++ [text CRLF]) held
  | added {calls : List Call} {es : List Element} {held : Bytes} (h : Holds calls es held) {c : Call} {pieces : List Bytes}
    (hc : c.text = some pieces.flatten) (hheld : pieces.flatten ≠ [] → held = []) :
    Holds (calls ++ [c]) (es ++ pieces.map text) held
  | base64 {calls : List Call} {es : List Element} {held : Bytes} (h : Holds calls es held) (data : Bytes) :
    Holds (calls ++ [.addBase64 data]) es (held ++ data)
  | base64Line {calls : List Call} {es : List Element} {bytes held : Bytes} (h : Holds calls es (bytes ++ held)) :
    Holds calls (es ++ [text (Base64.encode bytes ++ CRLF)]) held
  | boundary {calls : List Call} {es : List Element} (h : Holds calls es []) {t : Bytes} :
    Holds (calls ++ [.addBoundary]) (es ++ [⟨t, .boundaryElement⟩]) []
  | again {calls : List Call} {es : List Element} (h : Holds (calls ++ [.addBoundary]) es []) :
    Holds (calls ++ [.addBoundary] ++ [.addBoundary]) es []

/-- Nothing is lost or reordered: content is only added after that of all earlier calls, and `finish` leaves nothing
behind. -/
structure Complete (ctype : Bytes) (calls : List Call) : Prop where
  placed : ∀ before c after t, calls = before ++ c :: after → c.text = some t → t ≠ [] →
    Holds before (run ctype before).content []
  written : Holds calls (run ctype calls).finish.1.content []
  accumulator : (run ctype calls).finish.1.base64Accumulator.bytes = []
  pending : (run ctype calls).finish.1.pendingCRLF = false

/-- The number of bytes given to `addBase64` since the last boundary. -/
def base64Since (calls : List Call) : Nat :=
  calls.foldl (fun n c =>
    match c with
    | .addBase64 data => n + data.length
    | .addBoundary => 0
    | _ => n) 0

/-- All lines of base64 data are complete when other content follows and at the end, and raw data is followed by a boundary
or the end of such a line. -/
structure LinesComplete (calls : List Call) : Prop where
  before : ∀ before c after t, calls = before ++ c :: after → c.text = some t → t ≠ [] → 57 ∣ base64Since before
  last : 57 ∣ base64Since calls
  raw : ∀ before data after, calls = before ++ .addRawData data :: after →
    .addBoundary ∈ after ∨ base64Since before / 57 < base64Since calls / 57

/-! ### The builder -/

def Call.isRaw : Call → Bool
  | .addRawData _ => true
  | _ => false

variable {t : Bytes}

namespace MimeBuilder

theorem append_lineEnds_zero (es : List Element) : es ++ (List.replicate 0 CRLF).map text = es := List.append_nil es

theorem flushHeaderAndStartBody_eq (b : MimeBuilder) :
    ∃ n, (b.state = .header → n ≠ 0) ∧ b.flushHeaderAndStartBody =
      { b with content := b.content ++ (List.replicate n CRLF).map text, state := .body } := by
  rw [flushHeaderAndStartBody]
  split
  · exact ⟨1, fun _ => one_ne_zero, rfl⟩
  · next hstate =>
    refine ⟨0, fun hheader => ?_, by rw [append_lineEnds_zero, ← hstate]⟩
    rw [hstate] at hheader
    cases hheader

structure AddsText (b b' : MimeBuilder) (c : Call) (n : Nat) (pieces : List Bytes) : Prop where
  added : c.text = some pieces.flatten
  content : b'.content = b.content ++ (List.replicate n CRLF).map text ++ pieces.map text
  nonempty : b.state = .header → List.replicate n CRLF ++ pieces ≠ []
  ends : c.isRaw = false → ∃ first last, pieces = first ++ [last ++ CRLF]
  accumulator : b'.base64Accumulator = b.base64Accumulator
  pending : b'.pendingCRLF = (b.pendingCRLF || c.isRaw)

theorem call_text {c : Call} (h : c.text = some t) (b : MimeBuilder) :
    ∃ n pieces, AddsText b (b.call c) c n pieces := by
  obtain ⟨n, hn, hflush⟩ := b.flushHeaderAndStartBody_eq
  have hline : ∀ pieces : List Bytes, b.state = .header → List.replicate n CRLF ++ pieces ≠ [] := by
    intro pieces hheader hnil
    rw [List.append_eq_nil_iff, List.replicate_eq_nil_iff] at hnil
    exact hn hheader hnil.1
  cases c with
  | addHeader name value =>
    refine ⟨0, [name ++ [58, 32] ++ value ++ CRLF], congrArg some (List.flatten_singleton ..).symm, ?_,
      fun _ => List.cons_ne_nil _ _, fun _ => ⟨[], _, rfl⟩, rfl, (Bool.or_false _).symm⟩
    rw [append_lineEnds_zero]
    rfl
  | addLine line =>
    refine ⟨n, [line ++ CRLF], congrArg some (List.flatten_singleton ..).symm, ?_, hline _, fun _ => ⟨[], line, rfl⟩,
      ?_, ?_⟩
    · rw [call, addLine, hflush]
      rfl
    · rw [call, addLine, hflush]
      rfl
    · rw [call, addLine, hflush]
      exact (Bool.or_false _).symm
  | addLineQP line =>
    refine ⟨n, linesQP line, rfl, ?_, hline _, fun _ => ?_, ?_, ?_⟩
    · rw [call, addLineQP, hflush, pushAll_eq]
    · obtain ⟨first, last, hsplit⟩ := (List.eq_nil_or_concat' (line.splitOn 10)).resolve_left (List.splitOn_ne_nil 10 line)
      rw [linesQP, hsplit, List.map_append]
      exact ⟨_, _, rfl⟩
    · rw [call, addLineQP, hflush, pushAll_eq]
    · rw [call, addLineQP, hflush, pushAll_eq]
      exact (Bool.or_false _).symm
  | addRawData data =>
    refine ⟨n, rawPieces data, ?_, ?_, hline _, nofun, ?_, ?_⟩
    · rw [flatten_rawPieces]
      rfl
    · rw [call, addRawData, hflush, pushAll_eq]
    · rw [call, addRawData, hflush, pushAll_eq]
    · exact (Bool.or_true _).symm
  | addBase64 data => cases h
  | addBoundary => cases h

theorem flushBytes_eq (b : MimeBuilder) {bytes : Bytes} (h : bytes ≠ []) :
    b.flushBytes bytes =
      { b with
        content := b.content ++ [text (Base64.encode bytes ++ CRLF)] ++ (List.replicate b.pendingCRLF.toNat CRLF).map text
        base64Accumulator := .empty
        pendingCRLF := false } := by
  obtain ⟨content, contentType, accumulator, pending, state⟩ := b
  rw [flushBytes, if_pos h]
  cases pending with
  | false =>
    rw [Bool.toNat_false, append_lineEnds_zero]
    rfl
  | true => rfl

theorem flushBytes_nil (b : MimeBuilder) :
    b.flushBytes [] =
      { b with
        content := b.content ++ (List.replicate b.pendingCRLF.toNat CRLF).map text
        pendingCRLF := false } := by
  obtain ⟨content, contentType, accumulator, pending, state⟩ := b
  rw [flushBytes, if_neg (show ¬([] : Bytes) ≠ [] from fun h => h rfl)]
  cases pending with
  | false =>
    rw [Bool.toNat_false, append_lineEnds_zero]
    rfl
  | true => rfl

end MimeBuilder

/-! ### Holding -/

variable {calls : List Call} {es : List Element}

theorem Holds.lineEnds {held : Bytes} (h : Holds calls es held) (n : Nat) :
    Holds calls (es ++ (List.replicate n CRLF).map text) held := by
  induction n with
  | zero =>
    rw [append_lineEnds_zero]
    exact h
  | succ n ih =>
    rw [List.replicate_succ', List.map_append, ← List.append_assoc]
    exact ih.lineEnd

variable {b : MimeBuilder}

theorem Holds.flushBytes {bytes held : Bytes}
    (h : Holds calls b.content (bytes ++ held)) : Holds calls (b.flushBytes bytes).content held := by
  by_cases hbytes : bytes = []
  · rw [hbytes, List.nil_append] at h
    rw [hbytes, flushBytes_nil]
    exact h.lineEnds _
  · rw [flushBytes_eq b hbytes]
    exact h.base64Line.lineEnds _

theorem Holds.fillBase64 {data : Bytes} (h : Holds calls b.content (b.base64Accumulator.bytes ++ data)) :
    Holds calls (b.fillBase64 data).content (b.fillBase64 data).base64Accumulator.bytes := by
  fun_induction MimeBuilder.fillBase64 b data with
  | case1 b =>
    rw [List.append_nil] at h
    exact h
  | case2 b data hne room bytes hfull ih =>
    apply ih
    have hbytes : bytes ≠ [] := List.ne_nil_of_length_pos (by omega)
    have hsplit : b.base64Accumulator.bytes ++ data = bytes ++ data.drop room := by
      rw [List.append_assoc, List.take_append_drop]
    have hflush := (hsplit ▸ h).flushBytes
    rw [flushBytes_eq b hbytes] at hflush ⊢
    exact hflush
  | case3 b data hne room bytes hnot hshort ih =>
    apply ih
    dsimp only
    rw [List.append_assoc, List.take_append_drop]
    exact h

/-! ### Sizes -/

/-- The number of bytes other than CR and LF. -/
def weight (t : Bytes) : Nat := t.countP fun c => c ≠ 13 ∧ c ≠ 10

theorem weight_append (s t : Bytes) : weight (s ++ t) = weight s + weight t := List.countP_append ..

theorem weight_lineEnds (n : Nat) : weight (List.replicate n CRLF).flatten = 0 := by
  induction n with
  | zero => rfl
  | succ n ih =>
    rw [List.replicate_succ, List.flatten_cons, weight_append, ih]
    rfl

theorem weight_b64Char (value : Nat) (t : Bytes) : weight (Base64.b64Char value :: t) = weight t + 1 := by
  have hall : ∀ n < 64, Base64.base64Alphabet.getD n 0 ≠ 13 ∧ Base64.base64Alphabet.getD n 0 ≠ 10 := by decide +kernel
  have hchar := hall (value % 64) (Nat.mod_lt _ (by decide))
  exact List.countP_cons_of_pos (decide_eq_true hchar)

theorem weight_encode (bytes : Bytes) : weight (Base64.encode bytes) = 4 * ((bytes.length + 2) / 3) := by
  fun_induction Base64.encode bytes with
  | case1 p0 p1 p2 rest value ih =>
    rw [weight_b64Char, weight_b64Char, weight_b64Char, weight_b64Char, ih]
    simp only [List.length_cons]
    omega
  | case2 p1 p2 value =>
    rw [weight_b64Char, weight_b64Char, weight_b64Char, show weight [61] = 1 by decide,
      show [p1, p2].length = 2 from rfl]
  | case3 p1 value =>
    rw [weight_b64Char, weight_b64Char, show weight [61, 61] = 2 by decide, show [p1].length = 1 from rfl]
  | case4 => rfl

/-- The size of what comes after the last boundary, in thirds of a byte. -/
def sizeSince (es : List Element) : Nat :=
  es.foldl (fun n e => if e.type = .boundaryElement then 0 else n + 3 * weight e.text) 0

theorem sizeSince_text (es : List Element) (t : Bytes) : sizeSince (es ++ [text t]) = sizeSince es + 3 * weight t := by
  rw [sizeSince, List.foldl_append]
  rfl

theorem sizeSince_texts (es : List Element) (ts : List Bytes) :
    sizeSince (es ++ ts.map text) = sizeSince es + 3 * weight ts.flatten := by
  induction ts generalizing es with
  | nil =>
    rw [List.map_nil, List.append_nil]
    rfl
  | cons t ts ih =>
    rw [List.map_cons, ← List.singleton_append, ← List.append_assoc, ih, sizeSince_text, List.flatten_cons, weight_append]
    omega

theorem sizeSince_boundary (es : List Element) (t : Bytes) : sizeSince (es ++ [⟨t, .boundaryElement⟩]) = 0 := by
  rw [sizeSince, List.foldl_append]
  rfl

/-- The size that a call needs at least, in thirds of a byte. -/
def Call.size : Call → Nat
  | .addBase64 data => 4 * data.length
  | c => 3 * weight (c.text.getD [])

/-- The size that the calls since the last boundary need. -/
def neededSince (calls : List Call) : Nat := calls.foldl (fun n c => if c = .addBoundary then 0 else n + c.size) 0

theorem neededSince_text (calls : List Call) {c : Call} (h : c.text = some t) :
    neededSince (calls ++ [c]) = neededSince calls + 3 * weight t := by
  have hc : c ≠ .addBoundary := by
    rintro rfl
    cases h
  have hsize : c.size = 3 * weight (c.text.getD []) := by
    cases c with
    | addBase64 data => cases h
    | _ => rfl
  rw [neededSince, List.foldl_append, ← neededSince, List.foldl_cons, List.foldl_nil, if_neg hc, hsize, h]
  rfl

theorem neededSince_base64 (calls : List Call) (data : Bytes) :
    neededSince (calls ++ [.addBase64 data]) = neededSince calls + 4 * data.length := by
  rw [neededSince, List.foldl_append]
  rfl

theorem neededSince_boundary (calls : List Call) : neededSince (calls ++ [.addBoundary]) = 0 := by
  rw [neededSince, List.foldl_append]
  rfl

theorem Holds.neededSince_le {held : Bytes} (h : Holds calls es held) :
    neededSince calls ≤ sizeSince es + 4 * held.length := by
  induction h with
  | start => exact Nat.le_refl _
  | contentType => exact Nat.zero_le _
  | lineEnd h ih =>
    rw [sizeSince_text]
    omega
  | added h hc hheld ih =>
    rw [neededSince_text _ hc, sizeSince_texts]
    omega
  | base64 h data ih =>
    rw [neededSince_base64, List.length_append]
    omega
  | base64Line h ih =>
    rw [List.length_append] at ih
    rw [sizeSince_text, weight_append, weight_encode]
    omega
  | boundary h =>
    rw [neededSince_boundary]
    exact Nat.zero_le _
  | again h =>
    rw [neededSince_boundary]
    exact Nat.zero_le _

/-! ### Runs -/

theorem base64Since_text (calls : List Call) {c : Call} (h : c.text = some t) :
    base64Since (calls ++ [c]) = base64Since calls := by
  rw [base64Since, List.foldl_append]
  cases c with
  | addBase64 data => cases h
  | addBoundary => cases h
  | _ => rfl

theorem base64Since_base64 (calls : List Call) (data : Bytes) :
    base64Since (calls ++ [.addBase64 data]) = base64Since calls + data.length := by
  rw [base64Since, List.foldl_append]
  rfl

theorem base64Since_boundary (calls : List Call) : base64Since (calls ++ [.addBoundary]) = 0 := by
  rw [base64Since, List.foldl_append]
  rfl

theorem base64Since_le (calls : List Call) {after : List Call} (h : .addBoundary ∉ after) :
    base64Since calls ≤ base64Since (calls ++ after) := by
  induction after using List.reverseRecOn with
  | nil => rw [List.append_nil]
  | append_singleton after c ih =>
    rw [List.mem_append, not_or, List.mem_singleton] at h
    rw [← List.append_assoc]
    refine (ih h.1).trans ?_
    cases c with
    | addBoundary => exact absurd rfl h.2
    | addBase64 data =>
      rw [base64Since_base64]
      exact Nat.le_add_right _ _
    | addHeader name value => rw [base64Since_text _ rfl]
    | addLine line => rw [base64Since_text _ rfl]
    | addLineQP line => rw [base64Since_text _ rfl]
    | addRawData data => rw [base64Since_text _ rfl]

/-- Raw data is followed by a boundary, or the end of a line of base64 data. -/
def RawDone (calls : List Call) : Prop :=
  ∀ before data after, calls = before ++ .addRawData data :: after →
    .addBoundary ∈ after ∨ base64Since before / 57 < base64Since calls / 57

theorem concat_eq_split {α : Type} {l before after : List α} {c d : α} (h : l ++ [c] = before ++ d :: after) :
    (after = [] ∧ before = l ∧ d = c) ∨ ∃ rest, after = rest ++ [c] ∧ l = before ++ d :: rest := by
  rcases List.eq_nil_or_concat' after with rfl | ⟨rest, e, rfl⟩
  · obtain ⟨hl, hc⟩ := List.append_inj' h rfl
    exact .inl ⟨rfl, hl.symm, (List.cons.inj hc).1.symm⟩
  · rw [← List.cons_append, ← List.append_assoc] at h
    obtain ⟨hl, hc⟩ := List.append_inj' h rfl
    rw [(List.cons.inj hc).1]
    exact .inr ⟨rest, rfl, hl⟩

theorem rawDone_concat {c : Call} (hraw : c.isRaw = false) :
    RawDone (calls ++ [c]) ↔ ∀ before data after, calls = before ++ .addRawData data :: after →
      .addBoundary ∈ after ++ [c] ∨ base64Since before / 57 < base64Since (calls ++ [c]) / 57 := by
  constructor
  · intro h before data after hcalls
    apply h before data (after ++ [c])
    rw [hcalls, List.append_assoc]
    rfl
  · intro h before data after hcalls
    rcases concat_eq_split hcalls with ⟨-, -, rfl⟩ | ⟨rest, rfl, hrest⟩
    · cases hraw
    · exact h before data rest hrest

theorem rawDone_text {c : Call} (h : c.text = some t) :
    RawDone (calls ++ [c]) ↔ RawDone calls ∧ c.isRaw = false := by
  cases hraw : c.isRaw with
  | false =>
    have hc : Call.addBoundary ≠ c := by
      rintro rfl
      cases h
    rw [rawDone_concat hraw, base64Since_text calls h, RawDone]
    simp only [List.mem_append, List.mem_singleton, hc, or_false, and_true]
  | true =>
    refine ⟨fun hdone => ?_, fun hdone => by cases hdone.2⟩
    cases c with
    | addRawData data =>
      rcases hdone calls data [] rfl with hmem | hless
      · cases hmem
      · rw [base64Since_text calls h] at hless
        exact absurd hless (Nat.lt_irrefl _)
    | _ => cases hraw

theorem rawDone_base64 (calls : List Call) (data : Bytes) :
    RawDone (calls ++ [.addBase64 data]) ↔
      RawDone calls ∨ base64Since calls / 57 < (base64Since calls + data.length) / 57 := by
  rw [rawDone_concat rfl, base64Since_base64]
  simp only [List.mem_append, List.mem_singleton, reduceCtorEq, or_false]
  constructor
  · intro h
    by_cases hfull : base64Since calls / 57 < (base64Since calls + data.length) / 57
    · exact .inr hfull
    · refine .inl fun before raw after hcalls => (h before raw after hcalls).imp_right fun hless => ?_
      omega
  · rintro (hdone | hfull) before raw after hcalls
    · refine (hdone before raw after hcalls).imp_right fun hless => ?_
      omega
    · by_cases hmem : .addBoundary ∈ after
      · exact .inl hmem
      · have hnot : .addBoundary ∉ .addRawData raw :: after := by
          rw [List.mem_cons, not_or]
          exact ⟨nofun, hmem⟩
        have hle := base64Since_le before hnot
        rw [← hcalls] at hle
        right
        omega

theorem rawDone_boundary (calls : List Call) : RawDone (calls ++ [.addBoundary]) := by
  rw [rawDone_concat rfl]
  intro before data after _
  exact .inl (List.mem_append_right _ (List.mem_singleton_self _))

/-- A boundary has just been added. -/
def EndsAtBoundary (es : List Element) : Prop := (es.getLast?).map Element.type = some .boundaryElement

theorem not_endsAtBoundary_text (es : List Element) (t : Bytes) : ¬EndsAtBoundary (es ++ [text t]) := by
  rw [EndsAtBoundary, List.getLast?_concat]
  exact nofun

theorem endsAtBoundary_texts {ts : List Bytes} (h : EndsAtBoundary (es ++ ts.map text)) :
    ts = [] ∧ EndsAtBoundary es := by
  rcases List.eq_nil_or_concat' ts with rfl | ⟨rest, t, rfl⟩
  · rw [List.map_nil, List.append_nil] at h
    exact ⟨rfl, h⟩
  · rw [List.map_append, ← List.append_assoc] at h
    exact absurd h (not_endsAtBoundary_text _ t)

/-- The state of the builder, as far as it follows from the calls. -/
structure Tracks (calls : List Call) (b : MimeBuilder) : Prop where
  length : b.base64Accumulator.bytes.length = base64Since calls % 57
  size : sizeSince b.content + 4 * b.base64Accumulator.bytes.length = neededSince calls
  pending : b.pendingCRLF = false ↔ RawDone calls
  last : EndsAtBoundary b.content → b.state = .header ∧ ∃ before, calls = before ++ [.addBoundary]

theorem tracks_create (ctype : Bytes) : Tracks [] (create ctype) := by
  have hraw : RawDone [] := by
    intro before data after hnil
    rcases List.append_eq_nil_iff.1 hnil.symm with ⟨-, hcons⟩
    cases hcons
  by_cases hctype : ctype = []
  · rw [create, if_neg fun h => h hctype]
    exact ⟨rfl, rfl, ⟨fun _ => hraw, fun _ => rfl⟩, nofun⟩
  · rw [create, if_pos hctype]
    exact ⟨rfl, rfl, ⟨fun _ => hraw, fun _ => rfl⟩, nofun⟩

theorem Tracks.text (h : Tracks calls b) {c : Call} (hc : c.text = some t) : Tracks (calls ++ [c]) (b.call c) := by
  obtain ⟨n, pieces, hadds⟩ := call_text hc b
  have htexts : (b.call c).content = b.content ++ (List.replicate n CRLF ++ pieces).map MimeBuilder.text := by
    rw [hadds.content, List.map_append, List.append_assoc]
  refine ⟨?_, ?_, ?_, ?_⟩
  · rw [hadds.accumulator, base64Since_text calls hc]
    exact h.length
  · rw [hadds.accumulator, htexts, sizeSince_texts, List.flatten_append, weight_append, weight_lineEnds,
      neededSince_text calls hadds.added, ← h.size]
    omega
  · rw [hadds.pending, rawDone_text hc, ← h.pending, Bool.or_eq_false_iff]
  · intro hlast
    rw [htexts] at hlast
    obtain ⟨hnil, hbefore⟩ := endsAtBoundary_texts hlast
    exact absurd hnil (hadds.nonempty (h.last hbefore).1)

/-- What the loop of `addBase64` does. -/
structure Fills (b : MimeBuilder) (data : Bytes) (b' : MimeBuilder) : Prop where
  length : b'.base64Accumulator.bytes.length = (b.base64Accumulator.bytes.length + data.length) % 57
  size : sizeSince b'.content + 4 * b'.base64Accumulator.bytes.length =
    sizeSince b.content + 4 * (b.base64Accumulator.bytes.length + data.length)
  pending : b'.pendingCRLF = false ↔ b.pendingCRLF = false ∨ 57 ≤ b.base64Accumulator.bytes.length + data.length
  last : EndsAtBoundary b'.content → EndsAtBoundary b.content

theorem fills_fillBase64 (b : MimeBuilder) (data : Bytes) : Fills b data (b.fillBase64 data) := by
  fun_induction fillBase64 b data with
  | case1 b =>
    have hshort := b.base64Accumulator.short
    refine ⟨?_, by rw [List.length_nil, Nat.add_zero], ?_, id⟩
    · rw [List.length_nil, Nat.add_zero, Nat.mod_eq_of_lt hshort]
    · refine ⟨.inl, fun h => h.elim id fun hfull => ?_⟩
      rw [List.length_nil] at hfull
      omega
  | case2 b data hne room bytes hfull ih =>
    have hshort := b.base64Accumulator.short
    have hbytes : bytes ≠ [] := List.ne_nil_of_length_pos (by omega)
    have hlength : bytes.length = b.base64Accumulator.bytes.length + min room data.length := by
      rw [List.length_append, List.length_take]
    have hsize : sizeSince (b.flushBytes bytes).content = sizeSince b.content + 4 * 57 := by
      rw [flushBytes_eq b hbytes, sizeSince_texts, sizeSince_text, weight_lineEnds, weight_append, weight_encode, hfull]
      rfl
    have hempty : (b.flushBytes bytes).base64Accumulator.bytes = [] := by rw [flushBytes_eq b hbytes]; rfl
    have hpending : (b.flushBytes bytes).pendingCRLF = false := by rw [flushBytes_eq b hbytes]
    obtain ⟨hlen, hsz, hpend, hlast⟩ := ih
    rw [hempty, List.length_nil, Nat.zero_add, List.length_drop] at hlen hsz
    refine ⟨?_, ?_, ?_, ?_⟩
    · rw [hlen]
      omega
    · rw [hsz, hsize]
      omega
    · exact ⟨fun _ => .inr (by omega), fun _ => hpend.2 (.inl hpending)⟩
    · intro hends
      have hbefore := hlast hends
      rw [flushBytes_eq b hbytes] at hbefore
      exact absurd (endsAtBoundary_texts hbefore).2 (not_endsAtBoundary_text _ _)
  | case3 b data hne room bytes hnot hshort ih =>
    have hlength : bytes.length = b.base64Accumulator.bytes.length + min room data.length := by
      rw [List.length_append, List.length_take]
    have hdrop : (data.drop room).length = 0 := by
      rw [List.length_drop]
      omega
    obtain ⟨hlen, hsz, hpend, hlast⟩ := ih
    rw [hdrop] at hlen hsz hpend
    have hall : bytes.length + 0 = b.base64Accumulator.bytes.length + data.length := by
      rw [List.length_drop] at hdrop
      omega
    dsimp only at hlen hsz hpend hlast
    rw [hall] at hlen hsz hpend
    exact ⟨hlen, hsz, hpend, hlast⟩

theorem Tracks.startBody (h : Tracks calls b) :
    ∃ n, b.flushHeaderAndStartBody =
        { b with content := b.content ++ (List.replicate n CRLF).map MimeBuilder.text, state := .body } ∧
      ¬EndsAtBoundary (b.content ++ (List.replicate n CRLF).map MimeBuilder.text) ∧
      sizeSince (b.content ++ (List.replicate n CRLF).map MimeBuilder.text) = sizeSince b.content := by
  obtain ⟨n, hn, hflush⟩ := b.flushHeaderAndStartBody_eq
  refine ⟨n, hflush, fun hends => ?_, ?_⟩
  · obtain ⟨hnil, hbefore⟩ := endsAtBoundary_texts hends
    exact hn (h.last hbefore).1 ((List.replicate_eq_nil_iff CRLF).1 hnil)
  · rw [sizeSince_texts, weight_lineEnds]
    rfl

theorem Tracks.base64 (h : Tracks calls b) (data : Bytes) :
    Tracks (calls ++ [.addBase64 data]) (b.call (.addBase64 data)) := by
  obtain ⟨n, hflush, hends, hsize⟩ := h.startBody
  have hfills := fills_fillBase64 b.flushHeaderAndStartBody data
  have hcall : b.call (.addBase64 data) = b.flushHeaderAndStartBody.fillBase64 data := rfl
  rw [← hcall, hflush] at hfills
  obtain ⟨hlen, hsz, hpend, hlast⟩ := hfills
  dsimp only at hlen hsz hpend hlast
  have hlength := h.length
  refine ⟨?_, ?_, ?_, fun hboundary => absurd (hlast hboundary) hends⟩
  · rw [hlen, hlength, base64Since_base64]
    omega
  · have hneed := h.size
    rw [hsz, hsize, neededSince_base64]
    omega
  · rw [hpend, h.pending, rawDone_base64]
    refine or_congr_right ?_
    omega

theorem addBoundary_again (h : EndsAtBoundary b.content) : b.addBoundary = b := by
  rw [addBoundary]
  exact if_pos h

theorem addBoundary_eq (h : ¬EndsAtBoundary b.content) :
    b.addBoundary =
      { b.flushHeaderAndStartBody.flushBase64 with
        content := b.flushHeaderAndStartBody.flushBase64.content ++ [⟨[], .boundaryElement⟩]
        state := .header } := by
  rw [addBoundary]
  exact if_neg h

theorem flushBase64_empty (b : MimeBuilder) :
    b.flushBase64.base64Accumulator.bytes = [] ∧ b.flushBase64.pendingCRLF = false := by
  by_cases hbytes : b.base64Accumulator.bytes = []
  · rw [flushBase64, hbytes, flushBytes_nil]
    exact ⟨hbytes, rfl⟩
  · rw [flushBase64, flushBytes_eq b hbytes]
    exact ⟨rfl, rfl⟩

theorem Tracks.boundary (h : Tracks calls b) :
    Tracks (calls ++ [.addBoundary]) (b.call .addBoundary) := by
  have hcall : b.call .addBoundary = b.addBoundary := rfl
  by_cases hends : EndsAtBoundary b.content
  · obtain ⟨hstate, before, hcalls⟩ := h.last hends
    have hlength := h.length
    have hsize := h.size
    rw [hcalls, base64Since_boundary] at hlength
    rw [hcalls, neededSince_boundary] at hsize
    rw [hcall, addBoundary_again hends]
    refine ⟨by rw [base64Since_boundary]; exact hlength, by rw [neededSince_boundary]; exact hsize, ?_,
      fun _ => ⟨hstate, calls, rfl⟩⟩
    exact ⟨fun _ => rawDone_boundary calls, fun _ => h.pending.2 (hcalls ▸ rawDone_boundary before)⟩
  · obtain ⟨haccumulator, hpending⟩ := flushBase64_empty b.flushHeaderAndStartBody
    rw [hcall, addBoundary_eq hends]
    refine ⟨?_, ?_, ?_, fun _ => ⟨rfl, calls, rfl⟩⟩
    · dsimp only
      rw [haccumulator, base64Since_boundary]
      rfl
    · dsimp only
      rw [haccumulator, sizeSince_boundary, neededSince_boundary]
      rfl
    · exact ⟨fun _ => rawDone_boundary calls, fun _ => hpending⟩

theorem tracks_run (ctype : Bytes) (calls : List Call) : Tracks calls (run ctype calls) := by
  induction calls using List.reverseRecOn with
  | nil => exact tracks_create ctype
  | append_singleton calls c ih =>
    rw [run_concat]
    cases c with
    | addHeader name value => exact ih.text rfl
    | addLine line => exact ih.text rfl
    | addLineQP line => exact ih.text rfl
    | addRawData data => exact ih.text rfl
    | addBase64 data => exact ih.base64 data
    | addBoundary => exact ih.boundary

theorem Holds.dvd {ctype : Bytes} (h : Holds calls (run ctype calls).content []) :
    57 ∣ base64Since calls := by
  have htracks := tracks_run ctype calls
  have hle := h.neededSince_le
  have hsize := htracks.size
  have hlength := htracks.length
  rw [List.length_nil] at hle
  omega

/-! ### Complete contents -/

theorem Holds.text (h : Holds calls b.content b.base64Accumulator.bytes) {c : Call}
    (hc : c.text = some t) (hheld : t ≠ [] → b.base64Accumulator.bytes = []) :
    Holds (calls ++ [c]) (b.call c).content (b.call c).base64Accumulator.bytes := by
  obtain ⟨n, pieces, hadds⟩ := call_text hc b
  have ht : pieces.flatten = t := Option.some.inj (hadds.added.symm.trans hc)
  rw [hadds.content, hadds.accumulator]
  exact (h.lineEnds n).added hadds.added (ht ▸ hheld)

theorem Holds.addBase64 (h : Holds calls b.content b.base64Accumulator.bytes) (data : Bytes) :
    Holds (calls ++ [.addBase64 data]) (b.call (.addBase64 data)).content
      (b.call (.addBase64 data)).base64Accumulator.bytes := by
  obtain ⟨n, -, hflush⟩ := b.flushHeaderAndStartBody_eq
  apply Holds.fillBase64
  rw [hflush]
  exact (h.lineEnds n).base64 data

theorem Holds.addBoundary (h : Holds calls b.content b.base64Accumulator.bytes) (htracks : Tracks calls b) :
    Holds (calls ++ [.addBoundary]) (b.call .addBoundary).content (b.call .addBoundary).base64Accumulator.bytes := by
  have hcall : b.call .addBoundary = b.addBoundary := rfl
  by_cases hends : EndsAtBoundary b.content
  · obtain ⟨-, before, rfl⟩ := htracks.last hends
    have hlength := htracks.length
    rw [base64Since_boundary] at hlength
    have hempty := List.eq_nil_of_length_eq_zero hlength
    rw [hempty] at h
    rw [hcall, addBoundary_again hends, hempty]
    exact h.again
  · obtain ⟨n, -, hflush⟩ := b.flushHeaderAndStartBody_eq
    obtain ⟨haccumulator, -⟩ := flushBase64_empty b.flushHeaderAndStartBody
    have hheld : Holds calls b.flushHeaderAndStartBody.flushBase64.content [] := by
      rw [flushBase64]
      apply Holds.flushBytes
      rw [List.append_nil, hflush]
      exact h.lineEnds n
    rw [hcall, addBoundary_eq hends]
    dsimp only
    rw [haccumulator]
    exact hheld.boundary

theorem holds_run (ctype : Bytes)
    (h : ∀ before c after t, calls = before ++ c :: after → c.text = some t → t ≠ [] → 57 ∣ base64Since before) :
    Holds calls (run ctype calls).content (run ctype calls).base64Accumulator.bytes := by
  induction calls using List.reverseRecOn with
  | nil =>
    by_cases hctype : ctype = []
    · rw [run, List.foldl_nil, create, if_neg fun h => h hctype]
      exact .start
    · rw [run, List.foldl_nil, create, if_pos hctype]
      exact .contentType
  | append_singleton calls c ih =>
    have hcalls := ih fun before d after t hsplit => h before d (after ++ [c]) t (by rw [hsplit, List.append_assoc]; rfl)
    have htext : ∀ t, c.text = some t →
        Holds (calls ++ [c]) ((run ctype calls).call c).content ((run ctype calls).call c).base64Accumulator.bytes := by
      intro t hc
      refine hcalls.text hc fun hne => ?_
      have hdvd := h calls c [] t rfl hc hne
      have hlength := (tracks_run ctype calls).length
      exact List.eq_nil_of_length_eq_zero (by omega)
    rw [run_concat]
    cases c with
    | addHeader name value => exact htext _ rfl
    | addLine line => exact htext _ rfl
    | addLineQP line => exact htext _ rfl
    | addRawData data => exact htext _ rfl
    | addBase64 data => exact hcalls.addBase64 data
    | addBoundary => exact hcalls.addBoundary (tracks_run ctype calls)

/-- What `finish` leaves alone. -/
def Element.key (e : Element) : ElementType × Bytes := (e.type, if e.type = .textElement then e.text else [])

theorem eq_text_of_key {e : Element} (h : e.key = (MimeBuilder.text t).key) : e = MimeBuilder.text t := by
  obtain ⟨s, type⟩ := e
  have htype : type = .textElement := congrArg Prod.fst h
  have htext : (if type = .textElement then s else []) = t := congrArg Prod.snd h
  rw [if_pos htype] at htext
  rw [htype, htext]
  rfl

theorem eq_texts_of_key {ts : List Bytes}
    (h : es.map Element.key = (ts.map MimeBuilder.text).map Element.key) : es = ts.map MimeBuilder.text := by
  induction ts generalizing es with
  | nil => exact List.map_eq_nil_iff.1 h
  | cons t ts ih =>
    obtain ⟨e, rest, rfl, hkey, hrest⟩ := List.map_eq_cons_iff.1 h
    rw [eq_text_of_key hkey, ih hrest]
    rfl

theorem eq_singleton_of_key (h : es.map Element.key = [MimeBuilder.text t].map Element.key) :
    es = [MimeBuilder.text t] := by
  have htexts : [t].map MimeBuilder.text = [MimeBuilder.text t] := rfl
  rw [← htexts] at h ⊢
  exact eq_texts_of_key h

theorem map_key_fillIn (ctype boundary : Bytes) (es : List Element) :
    (fillIn ctype boundary es).map Element.key = es.map Element.key := by
  induction es with
  | nil => rfl
  | cons e es ih =>
    obtain ⟨t, type⟩ := e
    rw [fillIn, List.map_cons, List.map_cons, ih]
    cases type with
    | _ => rfl

theorem Holds.of_key {es es' : List Element} {held : Bytes} (h : Holds calls es held)
    (hkey : es'.map Element.key = es.map Element.key) : Holds calls es' held := by
  induction h generalizing es' with
  | start =>
    rw [List.map_eq_nil_iff.1 hkey]
    exact .start
  | contentType =>
    obtain ⟨⟨t, type⟩, rest, rfl, hfirst, hrest⟩ := List.map_eq_cons_iff.1 hkey
    have htype : type = .contentTypeElement := congrArg Prod.fst hfirst
    rw [List.map_eq_nil_iff.1 hrest, htype]
    exact .contentType
  | lineEnd h ih =>
    rw [List.map_append] at hkey
    obtain ⟨before, last, rfl, hbefore, hlast⟩ := List.map_eq_append_iff.1 hkey
    rw [eq_singleton_of_key hlast]
    exact (ih hbefore).lineEnd
  | added h hc hheld ih =>
    rw [List.map_append] at hkey
    obtain ⟨before, last, rfl, hbefore, hlast⟩ := List.map_eq_append_iff.1 hkey
    rw [eq_texts_of_key hlast]
    exact (ih hbefore).added hc hheld
  | base64 h data ih => exact (ih hkey).base64 data
  | base64Line h ih =>
    rw [List.map_append] at hkey
    obtain ⟨before, last, rfl, hbefore, hlast⟩ := List.map_eq_append_iff.1 hkey
    rw [eq_singleton_of_key hlast]
    exact (ih hbefore).base64Line
  | boundary h ih =>
    rw [List.map_append] at hkey
    obtain ⟨before, last, rfl, hbefore, hlast⟩ := List.map_eq_append_iff.1 hkey
    obtain ⟨⟨t, type⟩, rest, rfl, hfirst, hrest⟩ := List.map_eq_cons_iff.1 hlast
    have htype : type = .boundaryElement := congrArg Prod.fst hfirst
    rw [List.map_eq_nil_iff.1 hrest, htype]
    exact (ih hbefore).boundary
  | again h ih => exact (ih hkey).again

/-- **When nothing is lost or reordered.** -/
theorem complete_iff (ctype : Bytes) (calls : List Call) : Complete ctype calls ↔ LinesComplete calls := by
  have htracks := tracks_run ctype calls
  constructor
  · rintro ⟨hplaced, -, haccumulator, hpending⟩
    refine ⟨fun before c after t hcalls hc hne => (hplaced before c after t hcalls hc hne).dvd, ?_, htracks.pending.1 hpending⟩
    have hlength := htracks.length
    rw [show (run ctype calls).base64Accumulator.bytes = [] from haccumulator] at hlength
    exact Nat.dvd_of_mod_eq_zero hlength.symm
  · rintro ⟨hbefore, hlast, hraw⟩
    have hempty : ∀ calls, 57 ∣ base64Since calls → (run ctype calls).base64Accumulator.bytes = [] := by
      intro calls hdvd
      have hlength := (tracks_run ctype calls).length
      exact List.eq_nil_of_length_eq_zero (by omega)
    refine ⟨?_, ?_, hempty calls hlast, htracks.pending.2 hraw⟩
    · intro before c after t hcalls hc hne
      have hfirst : ∀ first d rest s, before = first ++ d :: rest → d.text = some s → s ≠ [] → 57 ∣ base64Since first := by
        intro first d rest s hsplit
        apply hbefore first d (rest ++ c :: after) s
        rw [hcalls, hsplit, List.append_assoc]
        rfl
      have hholds := holds_run ctype hfirst
      rw [hempty before (hbefore before c after t hcalls hc hne)] at hholds
      exact hholds
    · have hholds := holds_run ctype hbefore
      rw [hempty calls hlast] at hholds
      exact hholds.of_key (map_key_fillIn _ _ _)

/-- Base64 data that is followed by a line: it is written after the line. -/
theorem not_complete_base64_line :
    ¬Complete [] [.addBase64 (lit "A"), .addLine (lit "x"), .addBoundary] := by
  intro h
  have hholds := h.placed [.addBase64 (lit "A")] (.addLine (lit "x")) [.addBoundary] _ rfl rfl (by decide)
  exact absurd hholds.dvd (by decide)

end Afl.Net
