import Afl.Net.Http.FormParser

/-!
# Encoding arguments

`afl/net/parameterencoder.cpp`, and what the two form decoders make of its output. The string that the encoder appends
to is part of its state.
-/

namespace Afl.Net

open Charset

structure ParameterEncoder where
  result : Bytes
  first : Bool
  firstDelimiter : UInt8

namespace ParameterEncoder

def create (result : Bytes) (firstDelimiter : UInt8) : ParameterEncoder := ⟨result, true, firstDelimiter⟩

/-- What `handleHeader` appends before a key. -/
def delimiter (e : ParameterEncoder) : Bytes :=
  if e.first then (if e.firstDelimiter ≠ 0 then [e.firstDelimiter] else []) else [38]

def handleHeader (e : ParameterEncoder) (f : HeaderField) : ParameterEncoder :=
  { e with
    result := e.result ++ e.delimiter ++ UrlEncoding.encode f.name ++ [61] ++ UrlEncoding.encode f.value
    first := false }

/-- The string after the fields have been passed to the encoder. -/
def appended (result : Bytes) (firstDelimiter : UInt8) (fields : HeaderTable) : Bytes :=
  (fields.foldl handleHeader (create result firstDelimiter)).result

/-! ### What is appended -/

def fieldText (f : HeaderField) : Bytes := UrlEncoding.encode f.name ++ 61 :: UrlEncoding.encode f.value

theorem result_handleHeader (e : ParameterEncoder) (f : HeaderField) :
    (e.handleHeader f).result = e.result ++ (e.delimiter ++ fieldText f) := by
  simp only [handleHeader, fieldText, List.append_assoc, List.singleton_append]

theorem result_foldl {e : ParameterEncoder} (hfirst : e.first = false) (fields : HeaderTable) :
    (fields.foldl handleHeader e).result = e.result ++ fields.flatMap fun f => 38 :: fieldText f := by
  induction fields generalizing e with
  | nil => rw [List.foldl_nil, List.flatMap_nil, List.append_nil]
  | cons f fields ih =>
    have hdelimiter : e.delimiter = [38] := by rw [delimiter, hfirst]; rfl
    rw [List.foldl_cons, ih rfl, result_handleHeader, hdelimiter, List.flatMap_cons, List.append_assoc]
    rfl

def joined (fields : HeaderTable) : Bytes := [38].intercalate (fields.map fieldText)

theorem joined_cons (f : HeaderField) (fields : HeaderTable) :
    joined (f :: fields) = fieldText f ++ fields.flatMap fun f => 38 :: fieldText f := by
  induction fields generalizing f with
  | nil => simp [joined, List.intercalate]
  | cons g fields ih =>
    have hstep : joined (f :: g :: fields) = fieldText f ++ 38 :: joined (g :: fields) := by
      simp [joined, List.intercalate]
    rw [hstep, ih, List.flatMap_cons, List.cons_append]

theorem appended_nil (result : Bytes) (firstDelimiter : UInt8) : appended result firstDelimiter [] = result := rfl

theorem appended_cons (result : Bytes) (firstDelimiter : UInt8) (f : HeaderField) (fields : HeaderTable) :
    appended result firstDelimiter (f :: fields) =
      result ++ ((create result firstDelimiter).delimiter ++ joined (f :: fields)) := by
  have hresult : (create result firstDelimiter).result = result := rfl
  rw [appended, List.foldl_cons, result_foldl rfl, result_handleHeader, joined_cons, hresult, List.append_assoc,
    List.append_assoc]

/-! ### Special characters -/

theorem hexDigitUpper_plain {n : UInt8} (h : n.toNat < 16) :
    UrlEncoding.hexDigitUpper n ≠ 38 ∧ UrlEncoding.hexDigitUpper n ≠ 61 := by
  have hall : ∀ i < 16, (lit "0123456789ABCDEF").getD i 0 ≠ 38 ∧ (lit "0123456789ABCDEF").getD i 0 ≠ 61 := by decide
  exact hall n.toNat h

theorem mem_encode {u : UInt8} {s : Bytes} (h : u ∈ UrlEncoding.encode s) : u ≠ 38 ∧ u ≠ 61 := by
  rw [UrlEncoding.encode, List.mem_flatMap] at h
  obtain ⟨c, -, hc⟩ := h
  have hlt := c.toNat_lt
  rw [UrlEncoding.encodeByte] at hc
  split_ifs at hc with hquoted hspace
  · simp only [List.mem_cons, List.not_mem_nil, or_false] at hc
    rcases hc with rfl | rfl | rfl
    · decide
    · exact hexDigitUpper_plain (by rw [toNat_shiftRight_four]; omega)
    · exact hexDigitUpper_plain (by rw [toNat_and_fifteen]; omega)
  · rw [List.mem_singleton] at hc
    subst hc
    decide
  · rw [List.mem_singleton] at hc
    subst hc
    simp only [not_or] at hquoted
    exact ⟨hquoted.2.2.2.1, hquoted.2.2.2.2.2⟩

theorem not_mem_fieldText (f : HeaderField) : (38 : UInt8) ∉ fieldText f := by
  intro h
  rw [fieldText, List.mem_append, List.mem_cons] at h
  rcases h with h | h | h
  · exact (mem_encode h).1 rfl
  · exact absurd h (by decide)
  · exact (mem_encode h).1 rfl

theorem argument_fieldText (f : HeaderField) : argument (fieldText f) = [f] := by
  rw [fieldText, argument_of_eq fun c hc => decide_eq_false (mem_encode hc).2, UrlEncoding.decode_of_encode,
    UrlEncoding.decode_of_encode]

theorem splitOn_joined {fields : HeaderTable} (h : fields ≠ []) :
    (joined fields).splitOn 38 = fields.map fieldText := by
  refine List.splitOn_intercalate 38 ?_ (by simpa using h)
  intro text htext
  obtain ⟨f, -, rfl⟩ := List.mem_map.1 htext
  exact not_mem_fieldText f

theorem flatMap_argument (fields : HeaderTable) : (fields.map fieldText).flatMap argument = fields := by
  induction fields with
  | nil => rfl
  | cons f fields ih => rw [List.map_cons, List.flatMap_cons, argument_fieldText, ih, List.singleton_append]

/-! ### Decoding -/

/-- **Arguments survive.** What was appended to a path is what `matchArguments` reports, and it restores the path. -/
theorem matchArguments_appended {path : Bytes} (h : (63 : UInt8) ∉ path) (fields : HeaderTable) :
    matchArguments (appended path 63 fields) = (fields, path) := by
  have hpath : ∀ c ∈ path, decide (c = 63) = false := fun c hc => decide_eq_false fun heq => h (heq ▸ hc)
  cases fields with
  | nil => rw [appended_nil, matchArguments, Split.findIdx?_none hpath]
  | cons f fields =>
    have htext : appended path 63 (f :: fields) = path ++ 63 :: joined (f :: fields) := appended_cons path 63 f fields
    rw [htext, matchArguments, Split.findIdx?_append hpath rfl]
    dsimp only
    rw [List.drop_left, List.take_left, arguments_eq, splitOn_joined (List.cons_ne_nil f fields), flatMap_argument]

theorem matchArguments_appended_special :
    matchArguments (appended (lit "/a&b=c") 63 [⟨[], []⟩, ⟨lit "k?=", lit "1+1 &%3D"⟩]) =
      ([⟨[], []⟩, ⟨lit "k?=", lit "1+1 &%3D"⟩], lit "/a&b=c") :=
  matchArguments_appended (by decide) _

/-- The content of a form, in which the first field has no delimiter. `FormParser` does not report a field whose key and
value are both empty. -/
theorem received_appended (chunks : List Bytes) (fields : HeaderTable) (h : chunks.flatten = appended [] 0 fields) :
    Http.FormParser.received chunks = fields.filter fun f => f ≠ ⟨[], []⟩ := by
  have hparameter (f : HeaderField) :
      Http.FormParser.parameter (fieldText f) = [f].filter fun f => f ≠ ⟨[], []⟩ := by
    have hempty : fieldText f = [61] ↔ f = ⟨[], []⟩ := by
      constructor
      · intro heq
        have hfield := argument_fieldText f
        rw [heq] at hfield
        exact (List.cons.inj hfield).1.symm
      · rintro rfl
        rfl
    by_cases hf : f = ⟨[], []⟩
    · rw [Http.FormParser.parameter, if_pos (hempty.2 hf), hf]
      rfl
    · have hkeep : decide (f ≠ ⟨[], []⟩) = true := decide_eq_true hf
      rw [Http.FormParser.parameter, if_neg (hf ∘ hempty.1), argument_fieldText, List.filter_singleton, hkeep]
      rfl
  have hfields (fields : HeaderTable) :
      (fields.map fieldText).flatMap Http.FormParser.parameter = fields.filter fun f => f ≠ ⟨[], []⟩ := by
    induction fields with
    | nil => rfl
    | cons f fields ih =>
      rw [List.map_cons, List.flatMap_cons, ih, hparameter, ← List.filter_append, List.singleton_append]
  rw [Http.FormParser.received_eq, h]
  cases fields with
  | nil => rfl
  | cons f fields =>
    have htext : appended [] 0 (f :: fields) = joined (f :: fields) := appended_cons [] 0 f fields
    rw [htext, splitOn_joined (List.cons_ne_nil f fields), hfields]

end ParameterEncoder

end Afl.Net
