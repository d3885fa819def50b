import Afl.Lib.Stuffing
import Afl.Net.Mime.Content

/-!
# Dots in a mail

A mail ends at a line with nothing but a dot, so that `write` can add a dot to others. It does so for elements, but the
receiver of a mail takes dots away from lines.
-/

namespace Afl.Net

open Charset Stuffing

namespace MimeBuilder

def mailMarks : Marks UInt8 := ⟨46, 13, 10, by decide, by decide, by decide⟩

def allText (content : List Element) : Bytes := (content.map Element.text).flatten

/-- The mail does not end too early, and it is received as it was built. -/
structure Transparent (b : MimeBuilder) : Prop where
  noEnd : ∀ line ∈ mailMarks.lines (b.write true), line ≠ [46]
  restored : mailMarks.unstuff (b.write true) = b.write false

def BeginsLine (t : Bytes) : Prop := t = [] ∨ CRLF <:+ t

/-- The dots that begin a line are those that begin an element. -/
def DotsFit (content : List Element) : Prop :=
  ∀ es₁ e es₂ u v, content = es₁ ++ e :: es₂ → e.text = u ++ 46 :: v → (u = [] ↔ BeginsLine (allText es₁ ++ u))

/-- No line ends in the middle of an element. -/
def WholeElements (content : List Element) : Prop := ∀ e ∈ content, mailMarks.Whole e.text

/-! ### What is written -/

theorem write_true (b : MimeBuilder) : b.write true = (b.content.map Element.text).flatMap mailMarks.stuffPiece := by
  have helement : ∀ e, writeElement true e = mailMarks.stuffPiece e.text := by
    intro e
    rw [writeElement, Bool.true_and, Marks.stuffPiece]
    simp only [decide_eq_true_eq]
    rfl
  rw [write, List.flatMap_map]
  exact List.flatMap_congr fun e _ => helement e

theorem write_false (b : MimeBuilder) : b.write false = allText b.content := by
  rw [write, allText, ← List.flatMap_def]
  rfl

theorem fits_iff {content : List Element} : mailMarks.Fits .start (content.map Element.text) ↔ DotsFit content := by
  have hbegins : ∀ t, mailMarks.after .start t = .start ↔ BeginsLine t := fun t => Marks.after_eq_start
  constructor
  · intro h es₁ e es₂ u v heq he
    rw [← hbegins]
    exact h (es₁.map Element.text) e.text (es₂.map Element.text) u v (by rw [heq, List.map_append]; rfl) he
  · intro h ps₁ p ps₂ u v heq hp
    obtain ⟨es₁, es, rfl, rfl, hes⟩ := List.map_eq_append_iff.1 heq
    obtain ⟨e, es₂, rfl, rfl, rfl⟩ := List.map_eq_cons_iff.1 hes
    rw [hbegins]
    exact h es₁ e es₂ u v rfl hp

variable {b : MimeBuilder}

theorem WholeElements.transparent (h : WholeElements b.content) :
    Transparent b ↔ DotsFit b.content := by
  have hwhole : ∀ p ∈ b.content.map Element.text, mailMarks.Whole p := by
    intro p hp
    obtain ⟨e, he, rfl⟩ := List.mem_map.1 hp
    exact h e he
  rw [← fits_iff, ← Marks.unstuff_stuffPiece_iff hwhole, ← write_true]
  constructor
  · intro ht
    exact ⟨ht.noEnd, ht.restored.trans b.write_false⟩
  · intro ht
    exact ⟨ht.1, ht.2.trans b.write_false.symm⟩

/-! ### The elements of a mail -/

theorem whole_line (t : Bytes) : mailMarks.Whole (t ++ CRLF) := by
  intro _
  rw [List.getLast?_append]
  rfl

theorem whole_rawPieces {data p : Bytes} (hp : p ∈ rawPieces data) : mailMarks.Whole p := by
  induction data generalizing p with
  | nil => exact absurd hp List.not_mem_nil
  | cons c data ih =>
    rw [rawPieces] at hp
    split_ifs at hp with hlf
    · rcases List.mem_cons.1 hp with rfl | hp
      · intro _
        rw [hlf]
        rfl
      · exact ih hp
    · split at hp
      · rw [List.mem_singleton.1 hp]
        intro hmem
        exact absurd (List.mem_singleton.1 hmem).symm hlf
      · next piece pieces hcons =>
        rw [hcons] at ih
        rcases List.mem_cons.1 hp with rfl | hp
        · intro hmem
          have hmem : mailMarks.lf ∈ piece := (List.mem_cons.1 hmem).resolve_left fun h => hlf h.symm
          have hlast := ih List.mem_cons_self hmem
          rw [List.getLast?_cons, hlast]
          rfl
        · exact ih (List.mem_cons_of_mem _ hp)

theorem WholeElements.texts {es : List Element} (h : WholeElements es) {ts : List Bytes}
    (hts : ∀ t ∈ ts, mailMarks.Whole t) : WholeElements (es ++ ts.map text) := by
  intro e he
  rcases List.mem_append.1 he with he | he
  · exact h e he
  · obtain ⟨t, ht, rfl⟩ := List.mem_map.1 he
    exact hts t ht

theorem WholeElements.lineEnds {es : List Element} (h : WholeElements es) (n : Nat) :
    WholeElements (es ++ (List.replicate n CRLF).map text) := by
  refine h.texts fun t ht => ?_
  rw [List.eq_of_mem_replicate ht]
  exact whole_line []

theorem WholeElements.line {es : List Element} (h : WholeElements es) (t : Bytes) :
    WholeElements (es ++ [text (t ++ CRLF)]) :=
  h.texts fun _ ht => List.mem_singleton.1 ht ▸ whole_line t

theorem WholeElements.pushAll (h : WholeElements b.content) {ts : List Bytes}
    (hts : ∀ t ∈ ts, mailMarks.Whole t) : WholeElements (b.pushAll ts).content := by
  rw [pushAll_eq]
  exact h.texts hts

theorem WholeElements.startBody (h : WholeElements b.content) :
    WholeElements b.flushHeaderAndStartBody.content := by
  obtain ⟨n, -, hflush⟩ := b.flushHeaderAndStartBody_eq
  rw [hflush]
  exact h.lineEnds n

theorem WholeElements.flushBytes (h : WholeElements b.content) (bytes : Bytes) :
    WholeElements (b.flushBytes bytes).content := by
  by_cases hnil : bytes = []
  · rw [hnil, flushBytes_nil]
    exact h.lineEnds _
  · rw [flushBytes_eq b hnil]
    exact (h.line _).lineEnds _

theorem WholeElements.fillBase64 (h : WholeElements b.content) (data : Bytes) :
    WholeElements (b.fillBase64 data).content := by
  fun_induction MimeBuilder.fillBase64 b data with
  | case1 b => exact h
  | case2 b data hne room bytes hfull ih => exact ih (h.flushBytes bytes)
  | case3 b data hne room bytes hnot hshort ih => exact ih h

theorem WholeElements.addBoundary (h : WholeElements b.content) :
    WholeElements b.addBoundary.content := by
  rw [MimeBuilder.addBoundary]
  split_ifs
  · exact h
  · have hflushed := h.startBody.flushBytes b.flushHeaderAndStartBody.base64Accumulator.bytes
    intro e he
    rcases List.mem_append.1 he with he | he
    · exact hflushed e he
    · rw [List.mem_singleton.1 he]
      intro hmem
      exact absurd hmem List.not_mem_nil

theorem WholeElements.call (h : WholeElements b.content) (c : Call) : WholeElements (b.call c).content := by
  cases c with
  | addHeader name value => exact h.line _
  | addLine line => exact h.startBody.line _
  | addLineQP line =>
    refine h.startBody.pushAll fun t ht => ?_
    obtain ⟨l, -, rfl⟩ := List.mem_map.1 ht
    exact whole_line _
  | addRawData data => exact h.startBody.pushAll fun t ht => whole_rawPieces ht
  | addBase64 data => exact h.startBody.fillBase64 data
  | addBoundary => exact h.addBoundary

theorem wholeElements_run (ctype : Bytes) (calls : List Call) : WholeElements (run ctype calls).content := by
  induction calls using List.reverseRecOn with
  | nil =>
    intro e he hmem
    have htext : e.text = [] := by
      have hcreate : e ∈ if ctype ≠ [] then [⟨[], .contentTypeElement⟩] else [] := he
      split_ifs at hcreate
      · rw [List.mem_singleton.1 hcreate]
      · exact absurd hcreate List.not_mem_nil
    rw [htext] at hmem
    exact absurd hmem List.not_mem_nil
  | append_singleton calls c ih =>
    rw [run_concat]
    exact ih.call c

theorem WholeElements.fillIn {content : List Element} (h : WholeElements content) (ctype boundary : Bytes) :
    WholeElements (fillIn ctype boundary content) := by
  induction content with
  | nil => exact h
  | cons e content ih =>
    obtain ⟨he, hcontent⟩ := List.forall_mem_cons.1 h
    refine List.forall_mem_cons.2 ⟨?_, ih hcontent⟩
    dsimp only
    split
    · exact he
    · exact whole_line _
    · split_ifs
      · exact whole_line _
      · exact whole_line _

end MimeBuilder

open MimeBuilder

/-- **When dot-stuffing is transparent.** -/
theorem transparent_iff (ctype : Bytes) (calls : List Call) :
    Transparent (run ctype calls).finish.1 ↔ DotsFit (run ctype calls).finish.1.content :=
  WholeElements.transparent ((wholeElements_run ctype calls).fillIn _ _)

/-- A line that comes in two pieces. -/
theorem not_transparent_rawData :
    let b := (run [] [.addRawData (lit "x"), .addRawData (lit ".y\r\n")]).finish.1
    CRLF <:+ b.write false ∧ ¬Transparent b := by
  refine ⟨⟨lit "\r\nx.y", rfl⟩, fun h => ?_⟩
  have hrestored : mailMarks.unstuff (lit "\r\nx..y\r\n") = lit "\r\nx.y\r\n" := h.restored
  exact absurd hrestored (by decide +kernel)

end Afl.Net
