import Afl.Lib.Feed
import Afl.Net.Header

/-!
# The HTTP request parser

`afl/net/http/request.cpp`. `handleData` walks through a buffer state by state; several of its transitions look
at a character without consuming it. `feed` says what a single byte does, and `handleData_eq_run` that a buffer
is treated like its bytes one after another: the only difference is that a newline that makes the request
erroneous is left in the buffer.
-/

namespace Afl.Net.Http

open Feed

def HTTP_0_9 : Bytes := lit "HTTP/0.9"

def HTTP_1_1 : Bytes := lit "HTTP/1.1"

/-- The character classes of `scan`. -/
inductive CharClass
  | space
  | newline
  | ret
  | other
deriving DecidableEq

def CharClass.of (ch : UInt8) : CharClass :=
  if ch = 32 then .space else if ch = 10 then .newline else if ch = 13 then .ret else .other

/-- What `scan` found (`none` at the end of the buffer), saved and left. -/
structure Scanned where
  found : Option CharClass
  save : Bytes
  rest : Bytes

/-- `scan`: save characters while their class is accepted. -/
def scan (accept : CharClass → Bool) : Bytes → Bytes → Scanned
  | save, [] => ⟨none, save, []⟩
  | save, ch :: bytes =>
    if accept (.of ch) then scan accept (save ++ [ch]) bytes else ⟨some (.of ch), save, ch :: bytes⟩

inductive RequestState
  | method
  | methodSp
  | path
  | pathSp
  | version
  | header
  | done
  | error
deriving DecidableEq

/-- The members of a request; the header table is in the header parser. -/
structure Request where
  method : Bytes
  path : Bytes
  version : Bytes
  headerParser : HeaderParser
  state : RequestState
deriving DecidableEq

namespace Request

def create : Request := ⟨[], [], [], .create, .method⟩

def headers (r : Request) : HeaderTable := r.headerParser.table

def hasErrors (r : Request) : Bool := r.state = .error || r.headerParser.hasErrors

def isKeepalive (r : Request) : Bool :=
  if r.version = HTTP_0_9 then false
  else
    match HeaderTable.get r.headers (lit "Connection") with
    | some f => f.value = lit "keep-alive"
    | none => r.version = HTTP_1_1

def isResponseHeaderRequested (r : Request) : Bool := r.version ≠ HTTP_0_9

def isResponseBodyRequested (r : Request) : Bool := r.method ≠ lit "HEAD"

/-- A request line without a version. -/
def finishOld (r : Request) : Request := { r with version := HTTP_0_9, state := .done }

/-- One turn of the loop of `handleData`. -/
def turn (r : Request) (bytes : Bytes) : Request × Bytes :=
  match r.state with
  | .method =>
    let s := scan (· = .other) r.method bytes
    let r := { r with method := s.save }
    match s.found with
    | some .space | some .ret => ({ r with state := .methodSp }, s.rest)
    | some .newline => ({ r with state := .error }, s.rest)
    | _ => (r, s.rest)
  | .methodSp =>
    let s := scan (fun c => c = .space || c = .ret) [] bytes
    match s.found with
    | some .newline => ({ r with state := .error }, s.rest)
    | some .other => ({ r with state := .path }, s.rest)
    | _ => (r, s.rest)
  | .path =>
    let s := scan (· = .other) r.path bytes
    let r := { r with path := s.save }
    match s.found with
    | some .space | some .ret => ({ r with state := .pathSp }, s.rest)
    | some .newline => (r.finishOld, s.rest.tail)
    | _ => (r, s.rest)
  | .pathSp =>
    let s := scan (fun c => c = .space || c = .ret) [] bytes
    match s.found with
    | some .newline => (r.finishOld, s.rest.tail)
    | some .other => ({ r with state := .version }, s.rest)
    | _ => (r, s.rest)
  | .version =>
    let s := scan (fun c => c = .other || c = .space) r.version bytes
    let r := { r with version := s.save }
    match s.found with
    | some .newline => ({ r with state := .header }, s.rest.tail)
    | some .ret => (r, s.rest.tail)
    | _ => (r, s.rest)
  | .header =>
    let (p, rest) := r.headerParser.handleData bytes
    let r := { r with headerParser := p }
    (if p.state = .final then { r with state := .done } else r, rest)
  | .done | .error => (r, bytes)

def isFinished (r : Request) : Bool := r.state = .done || r.state = .error

/-- `handleData`: the request, which is complete if `isFinished`, and the unprocessed bytes. Every turn consumes a
byte or moves on to a later state, so the fuel suffices (`handleData_eq_run`). -/
def handleData (r : Request) (bytes : Bytes) : Request × Bytes :=
  (turns isFinished turn (bytes.length + 7) r bytes).getD (r, bytes)

/-! ### One byte -/

/-- What one byte does to an unfinished request. `fail` is a newline where none may be. -/
def feed (r : Request) (ch : UInt8) : Reaction Request Request :=
  match r.state, CharClass.of ch with
  | .method, .other => .next { r with method := r.method ++ [ch] }
  | .method, .space | .method, .ret => .next { r with state := .methodSp }
  | .method, .newline => .fail
  | .methodSp, .other => .next { r with path := r.path ++ [ch], state := .path }
  | .methodSp, .space | .methodSp, .ret => .next r
  | .methodSp, .newline => .fail
  | .path, .other => .next { r with path := r.path ++ [ch] }
  | .path, .space | .path, .ret => .next { r with state := .pathSp }
  | .path, .newline => .done r.finishOld
  | .pathSp, .other => .next { r with version := r.version ++ [ch], state := .version }
  | .pathSp, .space | .pathSp, .ret => .next r
  | .pathSp, .newline => .done r.finishOld
  | .version, .other | .version, .space => .next { r with version := r.version ++ [ch] }
  | .version, .ret => .next r
  | .version, .newline => .next { r with state := .header }
  | .header, _ =>
    let p := r.headerParser.step ch
    if p.state = .final then .done { r with headerParser := p, state := .done }
    else .next { r with headerParser := p }
  | .done, _ | .error, _ => .fail

/-! ### Buffers -/

theorem scan_cases (accept : CharClass → Bool) (save bytes : Bytes) :
    ((scan accept save bytes).found = none ∧ (scan accept save bytes).rest = []) ∨
      ∃ ch rest, (scan accept save bytes).found = some (.of ch) ∧ (scan accept save bytes).rest = ch :: rest ∧
        accept (.of ch) = false ∧ rest.length < bytes.length := by
  induction bytes generalizing save with
  | nil => exact .inl ⟨rfl, rfl⟩
  | cons ch bytes ih =>
    rw [scan]
    by_cases hch : accept (.of ch)
    · rw [if_pos hch]
      refine (ih (save ++ [ch])).imp id fun h => ?_
      obtain ⟨c, rest, hfound, hrest, hreject, hlen⟩ := h
      exact ⟨c, rest, hfound, hrest, hreject, Nat.lt_succ_of_lt hlen⟩
    · rw [if_neg hch]
      exact .inr ⟨ch, bytes, rfl, rfl, Bool.eq_false_iff.mpr hch, Nat.lt_succ_self _⟩

theorem run_scan {accept : CharClass → Bool} {g : Bytes → Request}
    (hstep : ∀ save ch, accept (.of ch) = true → feed (g save) ch = .next (g (save ++ [ch]))) (save bytes : Bytes) :
    run feed (g (scan accept save bytes).save) (scan accept save bytes).rest = run feed (g save) bytes := by
  induction bytes generalizing save with
  | nil => rfl
  | cons ch bytes ih =>
    rw [scan]
    by_cases hch : accept (.of ch)
    · rw [if_pos hch, run_cons_next (hstep save ch hch)]
      exact ih (save ++ [ch])
    · rw [if_neg hch]

/-- The request is still being parsed. -/
structure Live (r : Request) : Prop where
  unfinished : r.isFinished = false
  parser : r.headerParser.state ≠ .final

variable {r r' : Request}

theorem Live.of_parser (hr : Live r) (hparser : r'.headerParser = r.headerParser)
    (hdone : r'.state ≠ .done) (herror : r'.state ≠ .error) : Live r' :=
  ⟨by simp [isFinished, hdone, herror], hparser ▸ hr.parser⟩

/-- How far a request is from its end. -/
def rank : RequestState → Nat
  | .method => 6
  | .methodSp => 5
  | .path => 4
  | .pathSp => 3
  | .version => 2
  | .header => 1
  | .done | .error => 0

/-- What a turn may do: it makes progress and leaves what the bytes will do unchanged, or it ends the request. -/
inductive TurnSpec (r : Request) (bytes : Bytes) : Request × Bytes → Prop
  | progress {r' : Request} {rest : Bytes} (hlive : Live r') (hrun : run feed r' rest = run feed r bytes)
      (hless : rest.length + rank r'.state < bytes.length + rank r.state) : TurnSpec r bytes (r', rest)
  | done {r' : Request} {rest : Bytes} (hstate : r'.state = .done) (hrun : run feed r bytes = .done r' rest) :
      TurnSpec r bytes (r', rest)
  | error {r' : Request} {rest : Bytes} (hrun : run feed r bytes = .fail r' rest) :
      TurnSpec r bytes ({ r' with state := .error }, 10 :: rest)

variable {ch : UInt8}

theorem of_eq_newline (h : CharClass.of ch = .newline) : ch = 10 := by
  unfold CharClass.of at h
  split_ifs at h with h1 h2
  exact h2

variable {r : Request}

theorem header_run (hstate : r.state = .header) (p : HeaderParser) (bytes : Bytes) (hp : p.state ≠ .final) :
    run feed { r with headerParser := p } bytes =
      if (p.handleData bytes).1.state = .final then
        .done { r with headerParser := (p.handleData bytes).1, state := .done } (p.handleData bytes).2
      else .more { r with headerParser := (p.handleData bytes).1 } (p.handleData bytes).2 := by
  induction bytes generalizing p with
  | nil => simp [HeaderParser.handleData, hp]
  | cons ch bytes ih =>
    rw [HeaderParser.handleData, if_neg hp]
    have hfeed : feed { r with headerParser := p } ch =
        if (p.step ch).state = .final then .done { r with headerParser := p.step ch, state := .done }
        else .next { r with headerParser := p.step ch } := by
      simp [feed, hstate]
    by_cases hfinal : (p.step ch).state = .final
    · rw [if_pos hfinal] at hfeed
      rw [run_cons_done hfeed]
      cases bytes <;> simp [HeaderParser.handleData, hfinal]
    · rw [if_neg hfinal] at hfeed
      rw [run_cons_next hfeed]
      exact ih _ hfinal

theorem TurnSpec.of_run {bytes rest : Bytes} {out : Request × Bytes}
    (h : TurnSpec r' rest out) (hrun : run feed r' rest = run feed r bytes)
    (hlen : rest.length + rank r'.state ≤ bytes.length + rank r.state) : TurnSpec r bytes out := by
  cases h with
  | progress hlive hrun' hless => exact .progress hlive (hrun'.trans hrun) (by omega)
  | done hstate hrun' => exact .done hstate (hrun ▸ hrun')
  | error hrun' => exact .error (hrun ▸ hrun')

variable {bytes : Bytes}

/-- The common part of the turns that scan: what remains is what the turn does with the character it found. -/
theorem scan_turn {out : Request × Bytes} (accept : CharClass → Bool) (save : Bytes)
    (g : Bytes → Request) (hbytes : bytes ≠ []) (hg : g save = r) (hlive : ∀ s, Live (g s))
    (hrank : ∀ s, (g s).state = r.state)
    (hstep : ∀ s ch, accept (.of ch) = true → feed (g s) ch = .next (g (s ++ [ch])))
    (hnone : (scan accept save bytes).found = none → (scan accept save bytes).rest = [] →
      out = (g (scan accept save bytes).save, []))
    (hsome : ∀ ch rest, accept (.of ch) = false → (scan accept save bytes).found = some (.of ch) →
      (scan accept save bytes).rest = ch :: rest → TurnSpec (g (scan accept save bytes).save) (ch :: rest) out) :
    TurnSpec r bytes out := by
  have hrun := run_scan hstep save bytes
  rw [hg] at hrun
  rcases scan_cases accept save bytes with ⟨hfound, hrest⟩ | ⟨ch, rest, hfound, hrest, hreject, hlen⟩
  · rw [hrest] at hrun
    rw [hnone hfound hrest]
    refine .progress (hlive _) hrun ?_
    rw [hrank]
    have hpos := List.length_pos_of_ne_nil hbytes
    simpa using hpos
  · rw [hrest] at hrun
    refine (hsome ch rest hreject hfound hrest).of_run hrun ?_
    rw [hrank, List.length_cons]
    omega

/-- A character that only moves the request to a later state, which then treats it in the same way. -/
theorem TurnSpec.look {rest : Bytes} (hlive : Live r') (hr : feed r ch = feed r' ch)
    (hnext : ∃ t, feed r' ch = .next t) (hrank : rank r'.state < rank r.state) :
    TurnSpec r (ch :: rest) (r', ch :: rest) := by
  obtain ⟨t, ht⟩ := hnext
  refine .progress hlive ?_ (by omega)
  rw [run_cons_next ht, run_cons_next (hr.trans ht)]

theorem TurnSpec.eat {rest : Bytes} (hlive : Live r') (hr : feed r ch = .next r')
    (hrank : rank r'.state ≤ rank r.state) : TurnSpec r (ch :: rest) (r', rest) := by
  refine .progress hlive (run_cons_next hr).symm ?_
  rw [List.length_cons]
  omega

theorem TurnSpec.refuse {rest : Bytes} (hch : CharClass.of ch = .newline)
    (hr : feed r ch = .fail) : TurnSpec r (ch :: rest) ({ r with state := .error }, ch :: rest) := by
  obtain rfl := of_eq_newline hch
  exact .error (run_cons_fail hr)

theorem turn_method (hr : Live r) (hbytes : bytes ≠ []) (hstate : r.state = .method) :
    TurnSpec r bytes (r.turn bytes) := by
  refine scan_turn (· = .other) r.method (fun s => { r with method := s }) hbytes rfl
    (fun s => hr.of_parser rfl (by simp [hstate]) (by simp [hstate])) (fun s => rfl) ?_ ?_ ?_
  · intro s ch hch
    cases hc : CharClass.of ch <;> simp_all [feed]
  · intro hfound hrest
    simp [turn, hstate, hfound, hrest]
  · intro ch rest hreject hfound hrest
    cases hc : CharClass.of ch <;> simp only [hc] at hreject hfound <;> simp only [turn, hstate, hfound, hrest]
    · refine .look (hr.of_parser rfl (by simp) (by simp)) ?_ ?_ ?_ <;> simp [feed, hc, rank]
    · exact .refuse hc (by simp [feed, hc])
    · refine .look (hr.of_parser rfl (by simp) (by simp)) ?_ ?_ ?_ <;> simp [feed, hc, rank]
    · simp at hreject

theorem turn_methodSp (hr : Live r) (hbytes : bytes ≠ []) (hstate : r.state = .methodSp) :
    TurnSpec r bytes (r.turn bytes) := by
  refine scan_turn (fun c => c = .space || c = .ret) [] (fun _ => r) hbytes rfl
    (fun s => hr.of_parser rfl (by simp [hstate]) (by simp [hstate])) (fun s => rfl) ?_ ?_ ?_
  · intro s ch hch
    cases hc : CharClass.of ch <;> simp_all [feed]
  · intro hfound hrest
    simp [turn, hstate, hfound, hrest]
  · intro ch rest hreject hfound hrest
    cases hc : CharClass.of ch <;> simp only [hc] at hreject hfound <;> simp only [turn, hstate, hfound, hrest]
    · simp at hreject
    · exact .refuse hc (by simp [feed, hstate, hc])
    · simp at hreject
    · refine .look (hr.of_parser rfl (by simp) (by simp)) ?_ ?_ ?_ <;> simp [feed, hstate, hc, rank]

theorem turn_path (hr : Live r) (hbytes : bytes ≠ []) (hstate : r.state = .path) :
    TurnSpec r bytes (r.turn bytes) := by
  refine scan_turn (· = .other) r.path (fun s => { r with path := s }) hbytes rfl
    (fun s => hr.of_parser rfl (by simp [hstate]) (by simp [hstate])) (fun s => rfl) ?_ ?_ ?_
  · intro s ch hch
    cases hc : CharClass.of ch <;> simp_all [feed]
  · intro hfound hrest
    simp [turn, hstate, hfound, hrest]
  · intro ch rest hreject hfound hrest
    cases hc : CharClass.of ch <;> simp only [hc] at hreject hfound <;> simp only [turn, hstate, hfound, hrest]
    · refine .look (hr.of_parser rfl (by simp) (by simp)) ?_ ?_ ?_ <;> simp [feed, hc, rank]
    · exact .done rfl (run_cons_done (by simp [feed, hc]))
    · refine .look (hr.of_parser rfl (by simp) (by simp)) ?_ ?_ ?_ <;> simp [feed, hc, rank]
    · simp at hreject

theorem turn_pathSp (hr : Live r) (hbytes : bytes ≠ []) (hstate : r.state = .pathSp) :
    TurnSpec r bytes (r.turn bytes) := by
  refine scan_turn (fun c => c = .space || c = .ret) [] (fun _ => r) hbytes rfl
    (fun s => hr.of_parser rfl (by simp [hstate]) (by simp [hstate])) (fun s => rfl) ?_ ?_ ?_
  · intro s ch hch
    cases hc : CharClass.of ch <;> simp_all [feed]
  · intro hfound hrest
    simp [turn, hstate, hfound, hrest]
  · intro ch rest hreject hfound hrest
    cases hc : CharClass.of ch <;> simp only [hc] at hreject hfound <;> simp only [turn, hstate, hfound, hrest]
    · simp at hreject
    · exact .done rfl (run_cons_done (by simp [feed, hstate, hc]))
    · simp at hreject
    · refine .look (hr.of_parser rfl (by simp) (by simp)) ?_ ?_ ?_ <;> simp [feed, hstate, hc, rank]

theorem turn_version (hr : Live r) (hbytes : bytes ≠ []) (hstate : r.state = .version) :
    TurnSpec r bytes (r.turn bytes) := by
  refine scan_turn (fun c => c = .other || c = .space) r.version (fun s => { r with version := s }) hbytes rfl
    (fun s => hr.of_parser rfl (by simp [hstate]) (by simp [hstate])) (fun s => rfl) ?_ ?_ ?_
  · intro s ch hch
    cases hc : CharClass.of ch <;> simp_all [feed]
  · intro hfound hrest
    simp [turn, hstate, hfound, hrest]
  · intro ch rest hreject hfound hrest
    cases hc : CharClass.of ch <;> simp only [hc] at hreject hfound <;> simp only [turn, hstate, hfound, hrest]
    · simp at hreject
    · refine .eat (hr.of_parser rfl (by simp) (by simp)) ?_ ?_ <;> simp [feed, hc, rank]
    · refine .eat (hr.of_parser rfl (by simp) (by simp)) ?_ ?_ <;> simp [feed, hc, rank]
    · simp at hreject

theorem handleData_rest_of_not_final (p : HeaderParser) (bytes : Bytes)
    (h : (p.handleData bytes).1.state ≠ .final) : (p.handleData bytes).2 = [] := by
  induction bytes generalizing p with
  | nil => rfl
  | cons ch bytes ih =>
    rw [HeaderParser.handleData] at h ⊢
    split_ifs at h ⊢ with hfinal
    · exact absurd hfinal h
    · exact ih _ h

theorem turn_header (hr : Live r) (hbytes : bytes ≠ []) (hstate : r.state = .header) :
    TurnSpec r bytes (r.turn bytes) := by
  have hrun := header_run hstate r.headerParser bytes hr.parser
  by_cases hfinal : (r.headerParser.handleData bytes).1.state = .final
  · rw [if_pos hfinal] at hrun
    simp only [turn, hstate, if_pos hfinal]
    exact .done rfl hrun
  · rw [if_neg hfinal, handleData_rest_of_not_final _ _ hfinal] at hrun
    simp only [turn, hstate, if_neg hfinal, handleData_rest_of_not_final _ _ hfinal]
    refine .progress ⟨by simp [isFinished], hfinal⟩ ?_ ?_
    · rw [← hstate]
      exact hrun.symm
    · have hpos := List.length_pos_of_ne_nil hbytes
      simpa [hstate] using hpos

theorem turn_spec (hr : Live r) (hbytes : bytes ≠ []) :
    TurnSpec r bytes (r.turn bytes) := by
  have hunfinished := hr.unfinished
  rcases hstate : r.state with _ | _ | _ | _ | _ | _ | _ | _
  · exact turn_method hr hbytes hstate
  · exact turn_methodSp hr hbytes hstate
  · exact turn_path hr hbytes hstate
  · exact turn_pathSp hr hbytes hstate
  · exact turn_version hr hbytes hstate
  · exact turn_header hr hbytes hstate
  · simp [isFinished, hstate] at hunfinished
  · simp [isFinished, hstate] at hunfinished

/-- The result of `handleData` in terms of single bytes. -/
def ofRun : Result Request UInt8 Request → Request × Bytes
  | .more r rest => (r, rest)
  | .done r rest => (r, rest)
  | .fail r rest => ({ r with state := .error }, 10 :: rest)

/-- What `handleData` is to do: nothing to a finished request, `feed` to an unfinished one. -/
def LoopSpec (r : Request) (bytes : Bytes) (out : Request × Bytes) : Prop :=
  (r.isFinished = true ∧ out = (r, bytes)) ∨ (Live r ∧ out = ofRun (run feed r bytes))

theorem rank_pos (hr : Live r) : 0 < rank r.state := by
  have hunfinished := hr.unfinished
  cases hstate : r.state <;> simp [isFinished, hstate, rank] at hunfinished ⊢

theorem loopSpec_turn (hr : Live r) (hbytes : bytes ≠ []) :
    ((r.turn bytes).1.isFinished = true ∨ Live (r.turn bytes).1) ∧
      (r.turn bytes).2.length + rank (r.turn bytes).1.state < bytes.length + rank r.state ∧
      ∀ out, LoopSpec (r.turn bytes).1 (r.turn bytes).2 out → LoopSpec r bytes out := by
  have hspec := turn_spec hr hbytes
  have hrank := rank_pos hr
  have hfinished : ∀ {r' rest out}, r'.isFinished = true → ofRun (run feed r bytes) = (r', rest) →
      LoopSpec r' rest out → LoopSpec r bytes out := by
    intro r' rest out hf hrun hout
    rcases hout with ⟨-, rfl⟩ | ⟨hlive, -⟩
    · exact .inr ⟨hr, hrun.symm⟩
    · rw [hlive.unfinished] at hf
      cases hf
  generalize r.turn bytes = out at hspec
  cases hspec with
  | progress hlive hrun hless =>
    refine ⟨.inr hlive, hless, fun out hout => ?_⟩
    rcases hout with ⟨hf, -⟩ | ⟨-, rfl⟩
    · rw [hlive.unfinished] at hf
      cases hf
    · exact .inr ⟨hr, by rw [hrun]⟩
  | @done r' rest hstate hrun =>
    have hdone : r'.isFinished = true := by simp [isFinished, hstate]
    have hlen := run_done_length hrun
    refine ⟨.inl hdone, ?_, fun out => hfinished hdone (by rw [hrun]; rfl)⟩
    have hzero : rank .done = 0 := rfl
    simp only [hstate, hzero]
    omega
  | error hrun =>
    have hlen := run_fail_length hrun
    refine ⟨.inl (by simp [isFinished]), ?_, fun out => hfinished (by simp [isFinished]) (by rw [hrun]; rfl)⟩
    have hzero : rank .error = 0 := rfl
    simp only [hzero, List.length_cons]
    omega

/-- **The request parser is a byte machine.** -/
theorem handleData_eq_run (hr : Live r) (bytes : Bytes) :
    r.handleData bytes = ofRun (run feed r bytes) := by
  have hrank : rank r.state ≤ 6 := by cases r.state <;> simp [rank]
  have hstop : ∀ {r : Request} {bytes : Bytes}, r.isFinished = true ∨ Live r → bytes = [] ∨ r.isFinished = true →
      LoopSpec r bytes (r, bytes) := by
    intro r bytes hr hend
    rcases hr with hf | hlive
    · exact .inl ⟨hf, rfl⟩
    · rcases hend with rfl | hf
      · exact .inr ⟨hlive, rfl⟩
      · exact .inl ⟨hf, rfl⟩
  have hturn : ∀ {r : Request} {bytes : Bytes}, r.isFinished = true ∨ Live r → bytes ≠ [] → r.isFinished = false →
      ((r.turn bytes).1.isFinished = true ∨ Live (r.turn bytes).1) ∧
        (r.turn bytes).2.length + rank (r.turn bytes).1.state < bytes.length + rank r.state ∧
        ∀ out, LoopSpec (r.turn bytes).1 (r.turn bytes).2 out → LoopSpec r bytes out := by
    intro r bytes hr hbytes hf
    exact loopSpec_turn (hr.resolve_left (by simp [hf])) hbytes
  obtain ⟨out, hout, hspec⟩ := turns_spec isFinished turn (fun r => rank r.state)
    (I := fun r _ => r.isFinished = true ∨ Live r) hstop hturn (.inr hr) (show bytes.length + rank r.state < bytes.length + 7 by omega)
  rw [handleData, hout, Option.getD_some]
  rcases hspec with ⟨hf, -⟩ | ⟨-, hrun⟩
  · rw [hr.unfinished] at hf
    cases hf
  · exact hrun

theorem live_create : Live create := ⟨rfl, by decide⟩

theorem live_feed (hr : Live r) (h : feed r ch = .next r') : Live r' := by
  have hdone : r.state ≠ .done := fun hd => by simpa [isFinished, hd] using hr.unfinished
  have herror : r.state ≠ .error := fun he => by simpa [isFinished, he] using hr.unfinished
  unfold feed at h
  split at h
  all_goals simp only [Reaction.next.injEq, reduceCtorEq] at h
  all_goals try (subst h; exact hr.of_parser rfl (by simp [hdone]) (by simp [herror]))
  split_ifs at h with hfinal
  cases h
  exact ⟨hr.unfinished, hfinal⟩

theorem live_advance (hr : Live r) (h : advance feed r bytes = some r') :
    Live r' := by
  induction bytes generalizing r with
  | nil => cases h; exact hr
  | cons ch bytes ih =>
    rw [advance] at h
    rcases hf : feed r ch with t | t | _ <;> rw [hf] at h
    · exact ih (live_feed hr hf) h
    · cases h
    · cases h

end Request

end Afl.Net.Http
