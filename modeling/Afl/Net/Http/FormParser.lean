import Afl.Charset.UrlEncoding
import Afl.Lib.Split
import Afl.Net.Header

/-!
# The two form decoders

`afl/net/http/formparser.cpp` and `matchArguments` of `afl/net/url.cpp`. Their consumers are the lists of fields they
are given.
-/

namespace Afl.Net

open Charset

/-! ### Arguments of a path -/

def argument (n : Bytes) : HeaderTable :=
  match n.findIdx? (· = 61) with
  | some eq => [⟨UrlEncoding.decode (n.take eq), UrlEncoding.decode (n.drop (eq + 1))⟩]
  | none => if n ≠ [] then [⟨UrlEncoding.decode n, []⟩] else []

theorem argument_of_eq {key : Bytes} (h : ∀ c ∈ key, decide (c = 61) = false) (value : Bytes) :
    argument (key ++ 61 :: value) = [⟨UrlEncoding.decode key, UrlEncoding.decode value⟩] := by
  rw [argument, Split.findIdx?_append h rfl]
  simp only
  rw [List.take_left, Split.drop_append]

/-- The loop of `matchArguments`. The path from `n` on starts with the `?` or `&` that is skipped. -/
def arguments : Bytes → HeaderTable
  | [] => []
  | _ :: path =>
    let stop := (path.findIdx? (· = 38)).getD path.length
    argument (path.take stop) ++ arguments (path.drop stop)
termination_by path => path.length
decreasing_by
  rw [List.length_drop, List.length_cons]
  omega

/-- `matchArguments`: what the consumer gets, and the trimmed path. -/
def matchArguments (path : Bytes) : HeaderTable × Bytes :=
  match path.findIdx? (· = 63) with
  | some p => (arguments (path.drop p), path.take p)
  | none => ([], path)

theorem arguments_eq (c : UInt8) (path : Bytes) : arguments (c :: path) = (path.splitOn 38).flatMap argument := by
  induction hlength : path.length using Nat.strongRecOn generalizing c path with
  | ind n ih =>
    rw [arguments]
    rcases Split.cases (fun b : UInt8 => b = 38) path with hnone | ⟨a, d, b, rfl, hd, ha⟩
    · rw [Split.findIdx?_none hnone, Option.getD_none, List.take_length, List.drop_length, arguments, List.append_nil,
        List.splitOn_eq_singleton fun hmem => by simpa using hnone 38 hmem, List.flatMap_singleton]
    · have hnot : (38 : UInt8) ∉ a := fun hmem => by simpa using ha 38 hmem
      obtain rfl : d = 38 := of_decide_eq_true hd
      have hless : b.length < n := by
        rw [← hlength, List.length_append, List.length_cons]
        omega
      rw [Split.findIdx?_append ha hd, Option.getD_some, List.take_left, List.drop_left, ih b.length hless 38 b rfl,
        List.splitOn_append_cons_self_of_not_mem hnot, List.flatMap_cons]

theorem matchArguments_query (q : Bytes) : (matchArguments (63 :: q)).1 = (q.splitOn 38).flatMap argument := by
  rw [matchArguments, List.findIdx?_cons, if_pos (by decide)]
  exact arguments_eq 63 q

namespace Http

/-! ### The parser -/

inductive FormState
  | key
  | value
deriving DecidableEq

/-- A form parser, with the fields its consumer has been given. -/
structure FormParser where
  consumer : HeaderTable
  state : FormState
  key : Bytes
  value : Bytes
deriving DecidableEq

namespace FormParser

def create (consumer : HeaderTable) : FormParser := ⟨consumer, .key, [], []⟩

def handleDataComplete (p : FormParser) : FormParser :=
  if p.key ≠ [] ∨ p.value ≠ [] then
    ⟨p.consumer ++ [⟨UrlEncoding.decode p.key, UrlEncoding.decode p.value⟩], .key, [], []⟩
  else { p with state := .key }

/-- The body of the loop of `handleData`. -/
def step (p : FormParser) (c : UInt8) : FormParser :=
  if c = 38 then p.handleDataComplete
  else
    match p.state with
    | .key => if c = 61 then { p with state := .value } else { p with key := p.key ++ [c] }
    | .value => { p with value := p.value ++ [c] }

/-- `handleData` consumes all data. -/
def handleData (p : FormParser) (data : Bytes) : FormParser := data.foldl step p

/-- What the consumer has got after some chunks and `handleDataComplete`. -/
def received (chunks : List Bytes) : HeaderTable := ((chunks.foldl handleData (create [])).handleDataComplete).consumer

/-! ### One parameter -/

/-- What the consumer gets for the text between two separators. -/
def parameter (n : Bytes) : HeaderTable := if n = [61] then [] else argument n

theorem handleData_key {n : Bytes} (h : ∀ c ∈ n, c ≠ 38 ∧ c ≠ 61) (consumer : HeaderTable) (key : Bytes) :
    handleData ⟨consumer, .key, key, []⟩ n = ⟨consumer, .key, key ++ n, []⟩ := by
  induction n generalizing key with
  | nil => rw [List.append_nil]; rfl
  | cons c n ih =>
    obtain ⟨⟨hsep, heq⟩, hn⟩ := List.forall_mem_cons.mp h
    have hstep : step ⟨consumer, .key, key, []⟩ c = ⟨consumer, .key, key ++ [c], []⟩ := by
      simp only [step, if_neg hsep, if_neg heq]
    rw [handleData, List.foldl_cons, hstep]
    exact (ih hn (key ++ [c])).trans (by rw [List.append_assoc, List.singleton_append])

theorem handleData_value {n : Bytes} (h : ∀ c ∈ n, c ≠ 38) (consumer : HeaderTable) (key value : Bytes) :
    handleData ⟨consumer, .value, key, value⟩ n = ⟨consumer, .value, key, value ++ n⟩ := by
  induction n generalizing value with
  | nil => rw [List.append_nil]; rfl
  | cons c n ih =>
    obtain ⟨hsep, hn⟩ := List.forall_mem_cons.mp h
    have hstep : step ⟨consumer, .value, key, value⟩ c = ⟨consumer, .value, key, value ++ [c]⟩ := by
      simp only [step, if_neg hsep]
    rw [handleData, List.foldl_cons, hstep]
    exact (ih hn (value ++ [c])).trans (by rw [List.append_assoc, List.singleton_append])

theorem handleDataComplete_parameter {n : Bytes} (h : (38 : UInt8) ∉ n) (consumer : HeaderTable) :
    (handleData (create consumer) n).handleDataComplete = create (consumer ++ parameter n) := by
  have hsep : ∀ c ∈ n, c ≠ 38 := fun c hc heq => h (heq ▸ hc)
  rcases Split.cases (fun b : UInt8 => b = 61) n with hnone | ⟨key, d, value, rfl, hd, hkey⟩
  · have hplain : ∀ c ∈ n, c ≠ 38 ∧ c ≠ 61 := fun c hc => ⟨hsep c hc, of_decide_eq_false (hnone c hc)⟩
    have hother : n ≠ [61] := by
      rintro rfl
      exact absurd rfl (hplain 61 List.mem_cons_self).2
    rw [create, handleData_key hplain, handleDataComplete, List.nil_append, parameter, if_neg hother, argument,
      Split.findIdx?_none hnone]
    split_ifs with hn hn' hn'
    · rfl
    · exact absurd hn' (by simpa using hn)
    · exact absurd (.inl hn') hn
    · have hnil : n = [] := not_not.mp hn'
      rw [List.append_nil, hnil]
      rfl
  · obtain rfl : d = 61 := of_decide_eq_true hd
    rw [List.forall_mem_append, List.forall_mem_cons] at hsep
    have hplain : ∀ c ∈ key, c ≠ 38 ∧ c ≠ 61 := fun c hc => ⟨hsep.1 c hc, of_decide_eq_false (hkey c hc)⟩
    have hrun : handleData (create consumer) (key ++ 61 :: value) = ⟨consumer, .value, key, value⟩ := by
      have h1 := handleData_key hplain consumer []
      have h2 := handleData_value hsep.2.2 consumer key []
      rw [handleData] at h1 h2
      rw [handleData, List.foldl_append, create, h1, List.foldl_cons]
      exact h2
    rw [hrun, handleDataComplete, parameter, argument_of_eq hkey]
    by_cases hempty : key = [] ∧ value = []
    · obtain ⟨rfl, rfl⟩ := hempty
      simp [create]
    · have hother : ¬key ++ 61 :: value = [61] := by
        rcases key with _ | ⟨k, key⟩
        · intro heq
          exact hempty ⟨rfl, by simpa using heq⟩
        · intro heq
          simp at heq
      rw [if_neg hother, if_pos (by tauto)]
      rfl

/-! ### A query -/

theorem handleData_query (q : Bytes) (consumer : HeaderTable) :
    (handleData (create consumer) q).handleDataComplete =
      create (consumer ++ (q.splitOn 38).flatMap parameter) := by
  induction hlength : q.length using Nat.strongRecOn generalizing q consumer with
  | ind n ih =>
    rcases Split.cases (fun b : UInt8 => b = 38) q with hnone | ⟨a, d, b, rfl, hd, ha⟩
    · have hnot : (38 : UInt8) ∉ q := fun hmem => by simpa using hnone 38 hmem
      rw [handleDataComplete_parameter hnot, List.splitOn_eq_singleton hnot, List.flatMap_singleton]
    · have hnot : (38 : UInt8) ∉ a := fun hmem => by simpa using ha 38 hmem
      obtain rfl : d = 38 := of_decide_eq_true hd
      have hless : b.length < n := by
        rw [← hlength, List.length_append, List.length_cons]
        omega
      have hfirst : handleData (create consumer) (a ++ 38 :: b) = handleData (create (consumer ++ parameter a)) b := by
        rw [handleData, List.foldl_append, List.foldl_cons, ← handleDataComplete_parameter hnot]
        rfl
      rw [hfirst, ih b.length hless b _ rfl, List.splitOn_append_cons_self_of_not_mem hnot, List.flatMap_cons,
        List.append_assoc]

theorem received_eq (chunks : List Bytes) : received chunks = (chunks.flatten.splitOn 38).flatMap parameter := by
  have hchunks : chunks.foldl handleData (create []) = handleData (create []) chunks.flatten := by
    rw [handleData, List.foldl_flatten]
    rfl
  rw [received, hchunks, handleData_query]
  rfl

/-- Only a lone `=` is treated differently: it is an argument with empty key and value, but no parameter. -/
theorem flatMap_parameter_eq_iff (l : List Bytes) : l.flatMap parameter = l.flatMap argument ↔ [61] ∉ l := by
  constructor
  · intro heq hmem
    have hlength := congrArg List.length heq
    have hle : ∀ l : List Bytes, (l.flatMap parameter).length ≤ (l.flatMap argument).length := by
      intro l
      induction l with
      | nil => exact Nat.le_refl _
      | cons n l ih =>
        rw [List.flatMap_cons, List.flatMap_cons, List.length_append, List.length_append]
        refine Nat.add_le_add ?_ ih
        rw [parameter]
        split_ifs
        · exact Nat.zero_le _
        · exact Nat.le_refl _
    obtain ⟨before, rest, rfl⟩ := List.append_of_mem hmem
    have hbefore := hle before
    have hrest := hle rest
    have hone : (argument [61]).length = 1 := rfl
    have hnone : (parameter [61]).length = 0 := rfl
    simp only [List.flatMap_append, List.flatMap_cons, List.length_append, hone, hnone] at hlength
    omega
  · intro hnot
    have hsame : ∀ n ∈ l, parameter n = argument n := by
      intro n hn
      rw [parameter, if_neg]
      rintro rfl
      exact hnot hn
    exact List.flatMap_congr hsame

/-- **The form decoders agree unless a parameter is just `=`.** However the query is cut into chunks. -/
theorem formParser_agrees_iff (chunks : List Bytes) :
    received chunks = (matchArguments (63 :: chunks.flatten)).1 ↔ [61] ∉ chunks.flatten.splitOn 38 := by
  rw [received_eq, matchArguments_query, flatMap_parameter_eq_iff]

theorem formParser_disagrees :
    received [lit "="] = [] ∧ (matchArguments (lit "?=")).1 = [⟨[], []⟩] := by
  refine ⟨by decide, ?_⟩
  rw [show lit "?=" = 63 :: [61] from rfl, matchArguments_query]
  rfl

end FormParser

end Http

end Afl.Net
