import Afl.Base.Bytes
import Afl.Lib.Feed

/-!
# Sinks that delimit a message body

`afl/net/http/chunkedsink.cpp` and `afl/io/limiteddatasink.cpp`. Neither looks at what its peer does with the data,
so `handleData` returns the pieces it hands to `m_peer.handleData`, with the sink it leaves and the bytes it does not
consume.

`ChunkedSink.feed` says what a single byte does. `Decodes` relates the encoded bytes to the bytes the peer will get, and
by `handleData_spec` a buffer that holds the end of the body is consumed exactly up to it.
-/

namespace Afl.Net.Http

open Feed

/-! ### Chunked bodies -/

inductive ChunkState
  | chunkSize
  | extension
  | payload
  | payloadEnd
  | trailer
  | trailerHeader
  | final
deriving DecidableEq

/-- `m_size` is 64 bits wide. -/
structure ChunkedSink where
  state : ChunkState
  size : Nat
deriving DecidableEq

def hexValue (ch : UInt8) : Option Nat :=
  if 48 ≤ ch ∧ ch ≤ 57 then some (ch.toNat - 48)
  else if 65 ≤ ch ∧ ch ≤ 70 then some (ch.toNat - 65 + 10)
  else if 97 ≤ ch ∧ ch ≤ 102 then some (ch.toNat - 97 + 10)
  else none

variable {data : Bytes}

namespace ChunkedSink

def create : ChunkedSink := ⟨.chunkSize, 0⟩

/-- The state after the line with the chunk size. -/
def afterSize (size : Nat) : ChunkedSink := ⟨if size = 0 then .trailer else .payload, size⟩

/-- One more digit of the chunk size, in 64-bit arithmetic. -/
def addDigit (size digit : Nat) : Nat := (16 * size + digit) % 2 ^ 64

/-- Case `ChunkSize`. -/
def readSize : Nat → Bytes → ChunkedSink × Bytes
  | size, [] => (⟨.chunkSize, size⟩, [])
  | size, ch :: data =>
    match hexValue ch with
    | some digit => readSize (addDigit size digit) data
    | none =>
      if ch = 59 then (⟨.extension, size⟩, data)
      else if ch = 10 then (afterSize size, data)
      else readSize size data

/-- Cases `Extension`, `PayloadEnd` and `TrailerHeader`: skip anything up to the newline. -/
def skipLine (s next : ChunkedSink) : Bytes → ChunkedSink × Bytes
  | [] => (s, [])
  | ch :: data => if ch = 10 then (next, data) else skipLine s next data

/-- Case `Trailer`. -/
def readTrailer (size : Nat) : Bytes → ChunkedSink × Bytes
  | [] => (⟨.trailer, size⟩, [])
  | ch :: data =>
    if ch = 13 then readTrailer size data
    else if ch = 10 then (⟨.final, size⟩, data)
    else (⟨.trailerHeader, size⟩, data)

def afterPayload (size : Nat) : ChunkedSink := ⟨if size = 0 then .payloadEnd else .payload, size⟩

abbrev Progress := ChunkedSink × List Bytes

/-- One turn of the loop of `handleData`. -/
def turn (t : Progress) (data : Bytes) : Progress × Bytes :=
  match t.1.state with
  | .chunkSize => (((readSize t.1.size data).1, t.2), (readSize t.1.size data).2)
  | .extension =>
    let r := skipLine t.1 (afterSize t.1.size) data
    ((r.1, t.2), r.2)
  | .payload =>
    let n := if data.length > t.1.size then t.1.size else data.length
    ((afterPayload (t.1.size - n), t.2 ++ [data.take n]), data.drop n)
  | .payloadEnd =>
    let r := skipLine t.1 ⟨.chunkSize, t.1.size⟩ data
    ((r.1, t.2), r.2)
  | .trailer => (((readTrailer t.1.size data).1, t.2), (readTrailer t.1.size data).2)
  | .trailerHeader =>
    let r := skipLine t.1 ⟨.trailer, t.1.size⟩ data
    ((r.1, t.2), r.2)
  | .final => (t, data)

def isFinal (t : Progress) : Bool := t.1.state = .final

/-- `handleData`. The state `final` of the sink it leaves is the result `true`. -/
def handleData (s : ChunkedSink) (data : Bytes) : List Bytes × ChunkedSink × Bytes :=
  let r := (turns isFinal turn (data.length + 1) (s, []) data).getD ((s, []), data)
  (r.1.2, r.1.1, r.2)

/-- What one byte does; the second component collects the decoded bytes. -/
def feed (t : ChunkedSink × Bytes) (ch : UInt8) : Reaction (ChunkedSink × Bytes) Bytes :=
  match t.1.state with
  | .chunkSize =>
    match hexValue ch with
    | some digit => .next (⟨.chunkSize, addDigit t.1.size digit⟩, t.2)
    | none =>
      if ch = 59 then .next (⟨.extension, t.1.size⟩, t.2)
      else if ch = 10 then .next (afterSize t.1.size, t.2)
      else .next t
  | .extension => .next (if ch = 10 then (afterSize t.1.size, t.2) else t)
  | .payload => .next (afterPayload (t.1.size - 1), t.2 ++ [ch])
  | .payloadEnd => .next (if ch = 10 then (⟨.chunkSize, t.1.size⟩, t.2) else t)
  | .trailer =>
    if ch = 13 then .next t
    else if ch = 10 then .done t.2
    else .next (⟨.trailerHeader, t.1.size⟩, t.2)
  | .trailerHeader => .next (if ch = 10 then (⟨.trailer, t.1.size⟩, t.2) else t)
  | .final => .fail

/-- A sink that still reads; a payload is never empty. -/
structure Live (s : ChunkedSink) : Prop where
  state : s.state ≠ .final
  size : s.state = .payload → 0 < s.size

theorem live_afterSize (size : Nat) : Live (afterSize size) := by
  unfold afterSize
  split_ifs with h
  · exact ⟨by simp, by simp⟩
  · exact ⟨by simp, fun _ => Nat.pos_of_ne_zero h⟩

theorem live_afterPayload (size : Nat) : Live (afterPayload size) := by
  unfold afterPayload
  split_ifs with h
  · exact ⟨by simp, by simp⟩
  · exact ⟨by simp, fun _ => Nat.pos_of_ne_zero h⟩

/-! ### Turns are feeding -/

/-- What a turn may do: consume bytes without changing what the rest will do, or reach the end of the body. -/
inductive TurnSpec (t : Progress) (data : Bytes) : Progress × Bytes → Prop
  | progress {t' : Progress} {rest : Bytes} (hlive : Live t'.1)
      (hrun : run feed (t'.1, t'.2.flatten) rest = run feed (t.1, t.2.flatten) data)
      (hless : rest.length < data.length) : TurnSpec t data (t', rest)
  | done {t' : Progress} {rest : Bytes} (hstate : t'.1.state = .final)
      (hrun : run feed (t.1, t.2.flatten) data = .done t'.2.flatten rest) : TurnSpec t data (t', rest)

theorem run_readSize (out : Bytes) (size : Nat) (data : Bytes) :
    run feed ((readSize size data).1, out) (readSize size data).2 = run feed (⟨.chunkSize, size⟩, out) data := by
  induction data generalizing size with
  | nil => rfl
  | cons ch data ih =>
    rw [readSize]
    conv_rhs => rw [run]
    simp only [feed]
    split
    · exact ih _
    · split_ifs
      · rfl
      · rfl
      · exact ih size

theorem run_skipLine {s next : ChunkedSink} {out : Bytes} (data : Bytes)
    (hfeed : ∀ ch, feed (s, out) ch = .next (if ch = 10 then (next, out) else (s, out))) :
    run feed ((skipLine s next data).1, out) (skipLine s next data).2 = run feed (s, out) data := by
  induction data with
  | nil => rfl
  | cons ch data ih =>
    rw [skipLine, run_cons_next (hfeed ch)]
    split_ifs
    · rfl
    · exact ih

theorem run_payload (out : Bytes) (size : Nat) (hsize : 0 < size) (data : Bytes) :
    run feed (afterPayload (size - data.length), out ++ data.take size) (data.drop size) =
      run feed (⟨.payload, size⟩, out) data := by
  induction data generalizing out size with
  | nil => simp [afterPayload, hsize.ne']
  | cons ch data ih =>
    obtain ⟨n, rfl⟩ : ∃ n, size = n + 1 := ⟨size - 1, by omega⟩
    have hfeed : feed (⟨.payload, n + 1⟩, out) ch = .next (afterPayload n, out ++ [ch]) := rfl
    rw [run_cons_next hfeed, List.length_cons, Nat.add_sub_add_right, List.take_succ_cons, List.drop_succ_cons,
      List.append_cons]
    rcases Nat.eq_zero_or_pos n with rfl | hn
    · simp
    · rw [ih (out ++ [ch]) n hn]
      simp [afterPayload, hn.ne']

theorem readSize_live (size : Nat) (data : Bytes) : Live (readSize size data).1 := by
  induction data generalizing size with
  | nil => exact ⟨by simp [readSize], by simp [readSize]⟩
  | cons ch data ih =>
    rw [readSize]
    split
    · exact ih _
    · split_ifs
      · exact ⟨by simp, by simp⟩
      · exact live_afterSize size
      · exact ih size

theorem readSize_length (size : Nat) (hdata : data ≠ []) :
    (readSize size data).2.length < data.length := by
  induction data generalizing size with
  | nil => exact absurd rfl hdata
  | cons ch data ih =>
    have hrec : ∀ size, (readSize size data).2.length < (ch :: data).length := by
      intro size
      rcases eq_or_ne data [] with rfl | hne
      · simp [readSize]
      · exact Nat.lt_succ_of_lt (ih size hne)
    rw [readSize]
    split
    · exact hrec _
    · split_ifs
      · exact Nat.lt_succ_self _
      · exact Nat.lt_succ_self _
      · exact hrec size

theorem skipLine_cases (s next : ChunkedSink) (data : Bytes) :
    (skipLine s next data).1 = s ∨ (skipLine s next data).1 = next := by
  induction data with
  | nil => exact .inl rfl
  | cons ch data ih =>
    rw [skipLine]
    split_ifs
    · exact .inr rfl
    · exact ih

theorem skipLine_length (s next : ChunkedSink) (hdata : data ≠ []) :
    (skipLine s next data).2.length < data.length := by
  induction data with
  | nil => exact absurd rfl hdata
  | cons ch data ih =>
    rw [skipLine]
    split_ifs
    · exact Nat.lt_succ_self _
    · rcases eq_or_ne data [] with rfl | hne
      · exact Nat.lt_succ_self _
      · exact Nat.lt_succ_of_lt (ih hne)

variable {t : Progress}

theorem skipLine_spec {next : ChunkedSink} (ht : Live t.1) (hnext : Live next) (hdata : data ≠ [])
    (hfeed : ∀ ch, feed (t.1, t.2.flatten) ch = .next (if ch = 10 then (next, t.2.flatten) else (t.1, t.2.flatten))) :
    TurnSpec t data (((skipLine t.1 next data).1, t.2), (skipLine t.1 next data).2) := by
  refine .progress ?_ (run_skipLine data hfeed) (skipLine_length _ _ hdata)
  rcases skipLine_cases t.1 next data with h | h <;> rw [h]
  · exact ht
  · exact hnext

theorem TurnSpec.cons {ch : UInt8} {out : Progress × Bytes} (h : TurnSpec t data out)
    (hfeed : feed (t.1, t.2.flatten) ch = .next (t.1, t.2.flatten)) : TurnSpec t (ch :: data) out := by
  cases h with
  | progress hlive hrun hless =>
    exact .progress hlive (hrun.trans (run_cons_next hfeed).symm) (Nat.lt_succ_of_lt hless)
  | done hstate hrun => exact .done hstate ((run_cons_next hfeed).trans hrun)

theorem readTrailer_spec (hstate : t.1.state = .trailer) (hdata : data ≠ []) :
    TurnSpec t data (((readTrailer t.1.size data).1, t.2), (readTrailer t.1.size data).2) := by
  obtain ⟨⟨state, size⟩, pieces⟩ := t
  cases hstate
  induction data with
  | nil => exact absurd rfl hdata
  | cons ch data ih =>
    rw [readTrailer]
    split_ifs with h13 h10
    · have hfeed : feed (⟨.trailer, size⟩, pieces.flatten) ch = .next (⟨.trailer, size⟩, pieces.flatten) := by
        simp [feed, h13]
      rcases eq_or_ne data [] with rfl | hne
      · exact .progress ⟨by simp [readTrailer], by simp [readTrailer]⟩ (run_cons_next hfeed).symm (Nat.lt_succ_self _)
      · exact (ih hne).cons hfeed
    · exact .done rfl (run_cons_done (by simp [feed, h10]))
    · refine .progress ⟨by simp, by simp⟩ (run_cons_next ?_).symm (Nat.lt_succ_self _)
      simp [feed, h13, h10]

theorem payload_spec (ht : Live t.1) (hstate : t.1.state = .payload) (hdata : data ≠ []) :
    TurnSpec t data (turn t data) := by
  obtain ⟨⟨state, size⟩, pieces⟩ := t
  cases hstate
  have hsize : 0 < size := ht.size rfl
  have hpos := List.length_pos_of_ne_nil hdata
  have hrun := run_payload pieces.flatten size hsize data
  have hturn : turn (⟨.payload, size⟩, pieces) data =
      ((afterPayload (size - data.length), pieces ++ [data.take size]), data.drop size) := by
    by_cases hlong : data.length > size
    · have hzero : size - data.length = 0 := by omega
      simp [turn, hlong, hzero]
    · have hle : data.length ≤ size := by omega
      simp [turn, hlong, List.take_of_length_le hle, List.drop_of_length_le hle]
  rw [hturn]
  refine .progress (live_afterPayload _) ?_ ?_
  · rw [List.flatten_append, List.flatten_singleton]
    exact hrun
  · rw [List.length_drop]
    omega

theorem turn_spec (ht : Live t.1) (hdata : data ≠ []) :
    TurnSpec t data (turn t data) := by
  rcases hstate : t.1.state with _ | _ | _ | _ | _ | _ | _
  · simp only [turn, hstate]
    refine .progress (readSize_live _ _) ?_ (readSize_length _ hdata)
    rw [run_readSize, ← hstate]
  · simp only [turn, hstate]
    exact skipLine_spec ht (live_afterSize _) hdata fun ch => by simp [feed, hstate]
  · exact payload_spec ht hstate hdata
  · simp only [turn, hstate]
    exact skipLine_spec ht ⟨by simp, by simp⟩ hdata fun ch => by simp [feed, hstate]
  · simp only [turn, hstate]
    exact readTrailer_spec hstate hdata
  · simp only [turn, hstate]
    exact skipLine_spec ht ⟨by simp, by simp⟩ hdata fun ch => by simp [feed, hstate]
  · exact absurd hstate ht.state

/-- How a loop over a buffer must end if feeding its bytes ends in `r`. -/
def Ends (r : Result (ChunkedSink × Bytes) UInt8 Bytes) (out : Progress × Bytes) : Prop :=
  match r with
  | .more t rest => Live out.1.1 ∧ (out.1.1, out.1.2.flatten) = t ∧ out.2 = rest
  | .done decoded rest => out.1.1.state = .final ∧ out.1.2.flatten = decoded ∧ out.2 = rest
  | .fail _ _ => False

/-- What `handleData` is to do: nothing after the end of the body, `feed` before. -/
def LoopSpec (t : Progress) (data : Bytes) (out : Progress × Bytes) : Prop :=
  (isFinal t = true ∧ out = (t, data)) ∨ (Live t.1 ∧ Ends (run feed (t.1, t.2.flatten) data) out)

theorem Live.not_final (ht : Live t.1) : isFinal t = false := by simp [isFinal, ht.state]

theorem loopSpec_turn (ht : Live t.1) (hdata : data ≠ []) :
    (isFinal (turn t data).1 = true ∨ Live (turn t data).1.1) ∧ (turn t data).2.length < data.length ∧
      ∀ out, LoopSpec (turn t data).1 (turn t data).2 out → LoopSpec t data out := by
  have hspec := turn_spec ht hdata
  generalize turn t data = next at hspec
  cases hspec with
  | progress hlive hrun hless =>
    refine ⟨.inr hlive, hless, fun out hout => ?_⟩
    rcases hout with ⟨hfinal, -⟩ | ⟨-, hends⟩
    · rw [hlive.not_final] at hfinal
      cases hfinal
    · rw [hrun] at hends
      exact .inr ⟨ht, hends⟩
  | @done t' rest hstate hrun =>
    have hfinal : isFinal t' = true := by simp [isFinal, hstate]
    refine ⟨.inl hfinal, run_done_length hrun, fun out hout => ?_⟩
    rcases hout with ⟨-, rfl⟩ | ⟨hlive, -⟩
    · refine .inr ⟨ht, ?_⟩
      rw [hrun]
      exact ⟨hstate, rfl, rfl⟩
    · exact absurd hstate hlive.state

/-- **The chunked sink is a byte machine.** -/
theorem handleData_ends {s : ChunkedSink} (hs : Live s) (data : Bytes) :
    Ends (run feed (s, []) data)
      (((s.handleData data).2.1, (s.handleData data).1), (s.handleData data).2.2) := by
  have hstop : ∀ {t : Progress} {data : Bytes}, isFinal t = true ∨ Live t.1 → data = [] ∨ isFinal t = true →
      LoopSpec t data (t, data) := by
    intro t data ht hend
    rcases ht with hf | hlive
    · exact .inl ⟨hf, rfl⟩
    · rcases hend with rfl | hf
      · exact .inr ⟨hlive, hlive, rfl, rfl⟩
      · exact .inl ⟨hf, rfl⟩
  obtain ⟨out, hout, hspec⟩ := turns_spec isFinal turn (fun _ => 0) (I := fun t _ => isFinal t = true ∨ Live t.1) hstop
    (fun ht hdata hf => loopSpec_turn (ht.resolve_left (by simp [hf])) hdata)
    (show isFinal (s, []) = true ∨ Live (s, ([] : List Bytes)).1 from .inr hs)
    (show data.length + 0 < data.length + 1 by omega)
  rw [handleData, hout, Option.getD_some]
  rcases hspec with ⟨hf, -⟩ | ⟨-, hends⟩
  · exact absurd hf (by simp [isFinal, hs.state])
  · exact hends

theorem live_create : Live create := ⟨by simp [create], by simp [create]⟩

/-- Bytes decoded before go in front of all later ones. -/
def shift (before : Bytes) : Result (ChunkedSink × Bytes) UInt8 Bytes → Result (ChunkedSink × Bytes) UInt8 Bytes
  | .more t rest => .more (t.1, before ++ t.2) rest
  | .done decoded rest => .done (before ++ decoded) rest
  | .fail t rest => .fail (t.1, before ++ t.2) rest

theorem run_shift (before : Bytes) (s : ChunkedSink) (out data : Bytes) :
    run feed (s, before ++ out) data = shift before (run feed (s, out) data) := by
  induction data generalizing s out with
  | nil => rfl
  | cons ch data ih =>
    have hstep : feed (s, before ++ out) ch =
        match feed (s, out) ch with
        | .next t => .next (t.1, before ++ t.2)
        | .done decoded => .done (before ++ decoded)
        | .fail => .fail := by
      unfold feed
      cases s.state <;> simp only
      · split
        · rfl
        · split_ifs <;> rfl
      · split_ifs <;> rfl
      · simp
      · split_ifs <;> rfl
      · split_ifs <;> rfl
      · split_ifs <;> rfl
    rcases hf : feed (s, out) ch with ⟨s', out'⟩ | decoded | _ <;> rw [hf] at hstep
    · rw [run_cons_next hstep, run_cons_next hf]
      exact ih s' out'
    · rw [run_cons_done hstep, run_cons_done hf]
      rfl
    · rw [run_cons_fail hstep, run_cons_fail hf]
      rfl

end ChunkedSink

/-! ### Bodies -/

/-- `LimitedDataSink::handleData`: pass on what the limit permits. -/
def LimitedDataSink.handleData (limit : Nat) (data : Bytes) : List Bytes × Nat × Bytes :=
  ([data.take limit], limit - (data.take limit).length, data.drop limit)

/-- The sink that finds the end of a request body. -/
inductive BodySink
  | limited (limit : Nat)
  | chunked (s : ChunkedSink)

namespace BodySink

def handleData : BodySink → Bytes → List Bytes × BodySink × Bytes
  | .limited limit, data =>
    let (pieces, limit', rest) := LimitedDataSink.handleData limit data
    (pieces, .limited limit', rest)
  | .chunked s, data =>
    let (pieces, s', rest) := s.handleData data
    (pieces, .chunked s', rest)

/-- The result of `handleData`. -/
def isComplete : BodySink → Bool
  | .limited limit => limit = 0
  | .chunked s => s.state = .final

/-- The sink still has to see exactly `encoded`, and its peer will get `decoded` from it. -/
inductive Decodes : BodySink → Bytes → Bytes → Prop
  | limited (body : Bytes) : Decodes (.limited body.length) body body
  | chunked {s : ChunkedSink} {encoded decoded : Bytes} (hlive : s.Live)
      (hrun : run ChunkedSink.feed (s, []) encoded = .done decoded []) : Decodes (.chunked s) encoded decoded

theorem Decodes.ne_nil {sink : BodySink} {encoded decoded : Bytes} (h : Decodes sink encoded decoded)
    (hsink : sink.isComplete = false) : encoded ≠ [] := by
  rintro rfl
  cases h with
  | limited => cases hsink
  | chunked hlive hrun => cases hrun

/-- What a buffer does to a sink that expects `encoded`, if the stream goes on as the sink expects: it ends the
body and is consumed up to there, or it is consumed and the sink expects the rest. -/
inductive Handled (encoded decoded data : Bytes) : List Bytes × BodySink × Bytes → Prop
  | complete {pieces : List Bytes} {sink : BodySink} {rest : Bytes} (hsink : sink.isComplete = true)
      (hdata : data = encoded ++ rest) (hpieces : pieces.flatten = decoded) :
      Handled encoded decoded data (pieces, sink, rest)
  | incomplete {pieces : List Bytes} {sink : BodySink} {encoded' decoded' : Bytes} (hsink : sink.isComplete = false)
      (hdata : encoded = data ++ encoded') (hpieces : decoded = pieces.flatten ++ decoded')
      (hrest : Decodes sink encoded' decoded') : Handled encoded decoded data (pieces, sink, [])

theorem limited_handled (body : Bytes) {data later tail : Bytes} (hstream : data ++ later = body ++ tail) :
    Handled body body data (handleData (.limited body.length) data) := by
  have hend : ∀ rest, data = body ++ rest → Handled body body data (handleData (.limited body.length) data) := by
    rintro rest rfl
    have hdone : handleData (.limited body.length) (body ++ rest) = ([body], .limited 0, rest) := by
      simp [handleData, LimitedDataSink.handleData]
    rw [hdone]
    exact .complete rfl rfl (by simp)
  rcases List.append_eq_append_iff.mp hstream with ⟨rest, rfl, -⟩ | ⟨rest, hdata, -⟩
  · rcases eq_or_ne rest [] with rfl | hne
    · exact hend [] (by simp)
    · have hmore : handleData (.limited (data ++ rest).length) data = ([data], .limited rest.length, []) := by
        simp [handleData, LimitedDataSink.handleData, List.take_of_length_le]
      rw [hmore]
      refine .incomplete ?_ rfl (by simp) (.limited rest)
      simpa [isComplete] using hne
  · exact hend rest hdata

theorem chunked_handled {s : ChunkedSink} {encoded decoded data later tail : Bytes} (hs : s.Live)
    (hrun : run ChunkedSink.feed (s, []) encoded = .done decoded []) (hstream : data ++ later = encoded ++ tail) :
    Handled encoded decoded data (handleData (.chunked s) data) := by
  have hends := ChunkedSink.handleData_ends hs data
  have heq : handleData (.chunked s) data =
      ((s.handleData data).1, .chunked (s.handleData data).2.1, (s.handleData data).2.2) := rfl
  rw [heq]
  rcases run_cut hrun hstream with ⟨rest, hdata, hr⟩ | ⟨rest, t, -, hdata, hr, hr'⟩ <;> rw [hr] at hends
  · obtain ⟨hfinal, hpieces, hrest⟩ := hends
    simp only at hfinal hpieces hrest
    rw [hrest]
    exact .complete (by simpa [isComplete] using hfinal) hdata hpieces
  · obtain ⟨hlive, rfl, hrest⟩ := hends
    simp only at hlive hrest hr'
    have hshift := ChunkedSink.run_shift (s.handleData data).1.flatten (s.handleData data).2.1 [] rest
    rw [List.append_nil, hr'] at hshift
    rw [hrest]
    rcases hlast : run ChunkedSink.feed ((s.handleData data).2.1, []) rest with
        ⟨t, more⟩ | ⟨out, more⟩ | ⟨t, more⟩ <;> rw [hlast] at hshift <;> cases hshift
    exact .incomplete (by simpa [isComplete] using hlive.state) hdata rfl (.chunked hlive hlast)

/-- **The end of the body is found exactly.** -/
theorem handleData_spec {sink : BodySink} {encoded decoded data later tail : Bytes}
    (h : Decodes sink encoded decoded) (hstream : data ++ later = encoded ++ tail) :
    Handled encoded decoded data (sink.handleData data) := by
  cases h with
  | limited body => exact limited_handled _ hstream
  | chunked hlive hrun => exact chunked_handled hlive hrun hstream

/-! ### Where a body ends -/

/-- What is left of the data after the end of the body, if it holds that. -/
def left (sink : BodySink) (data : Bytes) : Option Bytes :=
  if (sink.handleData data).2.1.isComplete then some (sink.handleData data).2.2 else none

/-- A sink that has not seen the end of a chunked body. -/
def Ready : BodySink → Prop
  | .limited _ => True
  | .chunked s => s.Live

theorem left_chunked {s : ChunkedSink} (hs : s.Live) (data : Bytes) :
    left (.chunked s) data =
      match run ChunkedSink.feed (s, []) data with
      | .done _ rest => some rest
      | _ => none := by
  have hends := ChunkedSink.handleData_ends hs data
  have heq : left (.chunked s) data =
      if (s.handleData data).2.1.state = .final then some (s.handleData data).2.2 else none := by
    simp [left, handleData, isComplete]
  rw [heq]
  rcases hrun : run ChunkedSink.feed (s, []) data with ⟨t, rest⟩ | ⟨decoded, rest⟩ | ⟨t, rest⟩ <;> rw [hrun] at hends
  · rw [if_neg hends.1.state]
  · rw [if_pos hends.1, hends.2.2]
  · exact hends.elim

/-- **A body may come in pieces.** A piece that does not hold the end leaves a sink that finds it in the rest. -/
theorem left_append {sink : BodySink} (hsink : sink.Ready) (hmore : sink.left data = none) :
    (sink.handleData data).2.1.Ready ∧
      ∀ later, sink.left (data ++ later) = (sink.handleData data).2.1.left later := by
  cases sink with
  | limited limit =>
    have hless : data.length < limit := by
      simp only [left, handleData, LimitedDataSink.handleData, isComplete, List.length_take, decide_eq_true_eq,
        ite_eq_right_iff, reduceCtorEq, imp_false] at hmore
      omega
    refine ⟨trivial, fun later => ?_⟩
    have htake : (data.take limit).length = data.length := by
      rw [List.length_take, Nat.min_eq_right hless.le]
    have hdrop : (data ++ later).drop limit = later.drop (limit - data.length) := by
      rw [List.drop_append, List.drop_eq_nil_of_le hless.le, List.nil_append]
    simp only [left, handleData, LimitedDataSink.handleData, isComplete, htake, hdrop, List.length_take,
      List.length_append, decide_eq_true_eq]
    congr 1
    exact propext (by omega)
  | chunked s =>
    have hends := ChunkedSink.handleData_ends hsink data
    rw [left_chunked hsink] at hmore
    rcases hrun : run ChunkedSink.feed (s, []) data with ⟨t, rest⟩ | ⟨decoded, rest⟩ | ⟨t, rest⟩
    · rw [hrun] at hends
      obtain ⟨hlive, rfl, -⟩ := hends
      refine ⟨hlive, fun later => ?_⟩
      have hshift := ChunkedSink.run_shift (s.handleData data).1.flatten (s.handleData data).2.1 [] later
      rw [List.append_nil] at hshift
      have hnext : (handleData (.chunked s) data).2.1 = .chunked (s.handleData data).2.1 := rfl
      rw [hnext, left_chunked hsink, left_chunked hlive, run_append, hrun]
      simp only
      rw [hshift]
      rcases run ChunkedSink.feed ((s.handleData data).2.1, []) later with ⟨t, rest⟩ | ⟨out, rest⟩ | ⟨t, rest⟩ <;> rfl
    · rw [hrun] at hmore
      cases hmore
    · rw [hrun] at hends
      exact hends.elim

end BodySink

end Afl.Net.Http
