import Afl.Lib.Pieces
import Afl.Net.Http.Message

/-!
# Chunked transfer encoding

What a `ChunkedSink` makes of an encoded body that comes in packets. The size of a chunk is any text of hexadecimal
digits here; `m_size` takes it modulo 2^64.
-/

namespace Afl.Net.Http

open Feed Pieces

/-! ### Bodies in packets -/

namespace BodySink

/-- `handleData`, with the data that the peer has got so far. -/
def deliver (t : BodySink × Bytes) (data : Bytes) : (BodySink × Bytes) × Bytes :=
  let r := t.1.handleData data
  ((r.2.1, t.2 ++ r.1.flatten), r.2.2)

theorem deliver_complete {sink : BodySink} (hsink : sink.isComplete = true) (out data : Bytes) :
    deliver (sink, out) data = ((sink, out), data) := by
  cases sink with
  | limited limit =>
    obtain rfl : limit = 0 := of_decide_eq_true hsink
    simp [deliver, handleData, LimitedDataSink.handleData]
  | chunked s =>
    have hfinal : ChunkedSink.isFinal (s, []) = true := hsink
    simp [deliver, handleData, ChunkedSink.handleData, turns, hfinal]

theorem feed_complete {sink : BodySink} (hsink : sink.isComplete = true) (out : Bytes) (pieces : List Bytes) :
    feed deliver (sink, out) pieces = ((sink, out), pieces.flatten) := by
  induction pieces with
  | nil => rfl
  | cons piece pieces ih => rw [feed, deliver_complete hsink, ih, List.flatten_cons]

/-- **A body in packets** is delivered up to its end, where the sink is complete; the rest is left. -/
theorem feed_decodes {sink : BodySink} {encoded decoded : Bytes} (h : Decodes sink encoded decoded)
    (hsink : sink.isComplete = false) (out rest : Bytes) {pieces : List Bytes} (hpieces : pieces.flatten = encoded ++ rest) :
    ∃ sink', sink'.isComplete = true ∧ feed deliver (sink, out) pieces = ((sink', out ++ decoded), rest) := by
  induction pieces generalizing sink encoded decoded out with
  | nil =>
    have hempty : encoded ++ rest = [] := hpieces.symm
    exact absurd (List.append_eq_nil_iff.mp hempty).1 (h.ne_nil hsink)
  | cons piece pieces ih =>
    rw [List.flatten_cons] at hpieces
    have hhandled := handleData_spec h hpieces
    rw [feed, deliver]
    generalize sink.handleData piece = result at hhandled
    cases hhandled with
    | @complete delivered sink' left hcomplete hdata hdelivered =>
      refine ⟨sink', hcomplete, ?_⟩
      rw [hdata, List.append_assoc, List.append_cancel_left_eq] at hpieces
      simp only [feed_complete hcomplete, hdelivered, hpieces]
    | @incomplete delivered sink' encoded' decoded' hincomplete hdata hdelivered hrest =>
      rw [hdata, List.append_assoc, List.append_cancel_left_eq] at hpieces
      obtain ⟨last, hlast, hfeed⟩ := ih hrest hincomplete (out ++ delivered.flatten) hpieces
      refine ⟨last, hlast, ?_⟩
      simp only [hfeed, hdelivered, List.append_assoc, List.nil_append]

theorem feed_incomplete {sink : BodySink} {encoded decoded : Bytes} (h : Decodes sink encoded decoded)
    (hsink : sink.isComplete = false) (out : Bytes) {later : Bytes} (hlater : later ≠ []) {pieces : List Bytes}
    (hpieces : pieces.flatten ++ later = encoded) :
    (feed deliver (sink, out) pieces).1.1.isComplete = false ∧ (feed deliver (sink, out) pieces).2 = [] := by
  induction pieces generalizing sink encoded decoded out with
  | nil => exact ⟨hsink, rfl⟩
  | cons piece pieces ih =>
    rw [List.flatten_cons, List.append_assoc] at hpieces
    have hwhole : piece ++ (pieces.flatten ++ later) = encoded ++ [] := by rw [List.append_nil, hpieces]
    have hhandled := handleData_spec h hwhole
    rw [feed, deliver]
    generalize sink.handleData piece = result at hhandled
    cases hhandled with
    | @complete delivered sink' left hcomplete hdata hdelivered =>
      rw [hdata, List.append_assoc] at hpieces
      have hnone := List.append_right_eq_self.mp hpieces
      rw [List.append_eq_nil_iff, List.append_eq_nil_iff] at hnone
      exact absurd hnone.2.2 hlater
    | @incomplete delivered sink' encoded' decoded' hincomplete hdata hdelivered hrest =>
      rw [hdata, List.append_cancel_left_eq] at hpieces
      exact ih hrest hincomplete (out ++ delivered.flatten) hpieces

end BodySink

/-! ### Chunks as they are sent -/

/-- A chunk with any text of digits for a size. -/
structure SentChunk where
  size : Bytes
  extension : Bytes
  data : Bytes
  hdigits : ∀ c ∈ size, hexValue c ≠ none
  hnonempty : size ≠ []
  hextension : IsExtension extension
deriving DecidableEq

namespace SentChunk

def encode (c : SentChunk) : Bytes := c.size ++ c.extension ++ crlf ++ c.data ++ crlf

def afterLine (c : SentChunk) : ChunkedSink := (ChunkedSink.create.handleData (c.size ++ c.extension ++ crlf)).2.1

theorem afterLine_eq (c : SentChunk) : c.afterLine = ChunkedSink.afterSize (hexNumber c.size % 2 ^ 64) := by
  have hdigits := ChunkedSink.advance_digits c.hdigits 0 []
  have hline : run ChunkedSink.feed (.create, []) (c.size ++ (c.extension ++ crlf)) =
      .more (ChunkedSink.afterSize (hexNumber c.size % 2 ^ 64), []) [] := by
    rw [run_of_advance (show advance ChunkedSink.feed (.create, []) c.size = _ from hdigits), hexNumber,
      ← List.append_nil (c.extension ++ crlf), run_of_advance (ChunkedSink.advance_sizeLine c.hextension _ [])]
    rfl
  have hends := ChunkedSink.handleData_ends ChunkedSink.live_create (c.size ++ (c.extension ++ crlf))
  rw [hline] at hends
  rw [afterLine, List.append_assoc]
  exact congrArg Prod.fst hends.2.1

/-- The size is what the digits say, and there are as many data. -/
structure Fits (c : SentChunk) : Prop where
  data : c.data ≠ []
  size : hexNumber c.size = c.data.length

theorem Fits.chunk {c : SentChunk} (h : c.Fits) (hsmall : hexNumber c.size < 2 ^ 64) :
    ∃ k : Chunk, k.encode = c.encode ∧ k.data = c.data :=
  ⟨⟨c.size, c.extension, c.data, c.hdigits, h.size, c.hextension, h.data, h.size ▸ hsmall⟩, rfl, rfl⟩

theorem chunks_of_fits {chunks : List SentChunk} (hfits : ∀ c ∈ chunks, c.Fits)
    (hsmall : ∀ c ∈ chunks, hexNumber c.size < 2 ^ 64) :
    ∃ ks : List Chunk, ks.map Chunk.encode = chunks.map encode ∧ ks.map Chunk.data = chunks.map data := by
  induction chunks with
  | nil => exact ⟨[], rfl, rfl⟩
  | cons c chunks ih =>
    rw [List.forall_mem_cons] at hfits hsmall
    obtain ⟨k, hencode, hdata⟩ := hfits.1.chunk hsmall.1
    obtain ⟨ks, hencodes, hdatas⟩ := ih hfits.2 hsmall.2
    exact ⟨k :: ks, by rw [List.map_cons, List.map_cons, hencode, hencodes],
      by rw [List.map_cons, List.map_cons, hdata, hdatas]⟩

end SentChunk

def encodeChunks (chunks : List SentChunk) (trailer : Trailer) : Bytes :=
  (chunks.map SentChunk.encode).flatten ++ trailer.encode

theorem decodes_chunks {chunks : List SentChunk} (hfits : ∀ c ∈ chunks, c.Fits)
    (hsmall : ∀ c ∈ chunks, hexNumber c.size < 2 ^ 64) (trailer : Trailer) :
    (BodySink.chunked .create).Decodes (encodeChunks chunks trailer) (chunks.map SentChunk.data).flatten := by
  obtain ⟨ks, hencode, hdata⟩ := SentChunk.chunks_of_fits hfits hsmall
  refine .chunked ChunkedSink.live_create ?_
  rw [encodeChunks, ← hencode, ← hdata, run_of_advance (ChunkedSink.advance_chunks ks []), ChunkedSink.run_trailer,
    List.nil_append]

/-- The sink takes every size for what it is. If there are as many data, it delivers exactly these, however the packets
are cut; it is complete once it has got the blank line at the end, and not before, and it leaves what follows. -/
structure Transferred (chunks : List SentChunk) (trailer : Trailer) : Prop where
  sizes : ∀ c ∈ chunks, c.afterLine.size = hexNumber c.size
  delivers : (∀ c ∈ chunks, c.Fits) → ∀ (rest : Bytes) (pieces : List Bytes),
    pieces.flatten = encodeChunks chunks trailer ++ rest →
      ∃ sink, sink.isComplete = true ∧ feed BodySink.deliver (.chunked .create, []) pieces =
        ((sink, (chunks.map SentChunk.data).flatten), rest)
  ends : (∀ c ∈ chunks, c.Fits) → ∀ (later : Bytes) (pieces : List Bytes), later ≠ [] →
    pieces.flatten ++ later = encodeChunks chunks trailer →
      (feed BodySink.deliver (.chunked .create, []) pieces).1.1.isComplete = false ∧
        (feed BodySink.deliver (.chunked .create, []) pieces).2 = []

/-- **Chunked bodies are decoded exactly if the sizes of the chunks fit into 64 bits.** -/
theorem chunkedSink_transfers_iff (chunks : List SentChunk) (trailer : Trailer) :
    Transferred chunks trailer ↔ ∀ c ∈ chunks, hexNumber c.size < 2 ^ 64 := by
  have hsize : ∀ c : SentChunk, c.afterLine.size = hexNumber c.size ↔ hexNumber c.size < 2 ^ 64 := by
    intro c
    rw [c.afterLine_eq]
    exact Nat.mod_eq_iff_lt (by decide)
  constructor
  · intro h c hc
    exact (hsize c).mp (h.sizes c hc)
  · intro hsmall
    refine ⟨fun c hc => (hsize c).mpr (hsmall c hc), fun hfits rest pieces hpieces => ?_,
      fun hfits later pieces hlater hpieces => ?_⟩
    · exact BodySink.feed_decodes (decodes_chunks hfits hsmall trailer) rfl [] rest hpieces
    · exact BodySink.feed_incomplete (decodes_chunks hfits hsmall trailer) rfl [] hlater hpieces

/-- A chunk of 2^64 + 1 bytes is taken for one of a single byte. -/
theorem huge_chunk_is_reduced :
    hexNumber (lit "10000000000000001") = 2 ^ 64 + 1 ∧
      BodySink.deliver (.chunked .create, []) (lit "10000000000000001\r\nX\r\n0\r\n\r\nrest") =
        ((.chunked ⟨.final, 0⟩, lit "X"), lit "rest") :=
  ⟨by decide, by rfl⟩

end Afl.Net.Http
