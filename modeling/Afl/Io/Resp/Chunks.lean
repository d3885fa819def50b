import Afl.Io.Resp.Parser

/-!
# The parser does not see packet boundaries

Each state consumes a piece the way `feed` consumes its bytes. A state that ends in the middle of a piece has
made progress, which `Reaches` records, and a piece of `n` bytes nests the arrays at most `n` levels deeper;
together these bound the fuel of the mutually recursive loops.
-/

namespace Afl.Io.Resp

open Feed

/-! ### The states -/

/-- A call with data either ends the value or leaves less data. -/
def Shrinks (data : Bytes) (r : Outcome) : Prop := ∀ s rest, r = .more s rest → rest.length < data.length

theorem shrinks_run {acceptShort : Bool} {s : State} {data : Bytes} (hdata : data ≠ []) :
    Shrinks data (run (feed acceptShort) s data) := by
  intro s' rest h
  obtain rfl := run_more_rest h
  exact List.length_pos_of_ne_nil hdata

theorem rootState_reaches (acceptShort : Bool) (data : Bytes) :
    Reaches (feed acceptShort) .root data (RootState.handleData acceptShort data) := by
  rcases data with _ | ⟨ch, data⟩
  · exact ⟨[], rfl, rfl⟩
  · rw [RootState.handleData]
    rcases h : RootState.select acceptShort ch with _ | s
    · exact run_cons_fail (by simp [feed_root, h])
    · exact ⟨[ch], rfl, by rw [advance_cons_next (by simp only [feed_root, h]; rfl)]; rfl⟩

theorem rootState_shrinks (acceptShort : Bool) {data : Bytes} (hdata : data ≠ []) :
    Shrinks data (RootState.handleData acceptShort data) := by
  obtain ⟨ch, data, rfl⟩ := List.exists_cons_of_ne_nil hdata
  intro s rest h
  rw [RootState.handleData] at h
  split at h
  · cases h
    exact Nat.lt_succ_self _
  · cases h

theorem stringState_eq_run (acceptShort success : Bool) (value data : Bytes) :
    StringState.handleData success value data = run (feed acceptShort) (.string success value) data := by
  induction data generalizing value with
  | nil => rfl
  | cons ch data ih =>
    rw [StringState.handleData, run, feed_string]
    split_ifs
    · exact ih value
    · rfl
    · exact ih (value ++ [ch])

theorem shortState_eq_run (acceptShort : Bool) (accumulator : Bytes) (value : Segment) (data : Bytes) :
    ShortState.handleData accumulator value data = run (feed acceptShort) (.short accumulator value) data := by
  induction data generalizing accumulator value with
  | nil => rfl
  | cons ch data ih =>
    rw [ShortState.handleData, run, feed_short]
    split_ifs
    · rfl
    · exact ih [] _
    · exact ih (accumulator ++ [ch]) value

theorem trailer_eq_run (acceptShort : Bool) (value data : Bytes) :
    BulkState.trailer value data = run (feed acceptShort) (.bulk 0 value) data := by
  induction data with
  | nil => rfl
  | cons ch data ih =>
    rw [BulkState.trailer, run, feed_bulk_zero]
    split_ifs
    · exact ih
    · rfl
    · rfl

theorem bulkState_eq_run (acceptShort : Bool) (size : Nat) (value data : Bytes) :
    BulkState.handleData size value data = run (feed acceptShort) (.bulk size value) data := by
  induction size generalizing value data with
  | zero =>
    rw [← trailer_eq_run]
    simp [BulkState.handleData]
  | succ size ih =>
    rcases data with _ | ⟨ch, data⟩
    · simp [BulkState.handleData]
    · rw [run, feed_bulk_succ]
      simp only
      rw [← ih]
      simp [BulkState.handleData, List.append_assoc]

theorem intState_reaches (acceptShort : Bool) (kind : Kind) (phase : Phase) (value : Int) (data : Bytes) :
    Reaches (feed acceptShort) (.int kind phase value) data (IntState.handleData kind phase value data) := by
  induction data generalizing phase value with
  | nil => exact ⟨[], rfl, rfl⟩
  | cons ch data ih =>
    -- a byte that keeps the parser in this state is one step, the others end the loop
    have hstep : ∀ phase' value', feed acceptShort (.int kind phase value) ch = .next (.int kind phase' value') →
        Reaches (feed acceptShort) (.int kind phase value) (ch :: data)
          (IntState.handleData kind phase' value' data) :=
      fun phase' value' h => Reaches.step_next h (ih phase' value')
    have hfail : feed acceptShort (.int kind phase value) ch = .fail →
        Reaches (feed acceptShort) (.int kind phase value) (ch :: data)
          (.fail (.int kind phase value) data) := fun h => run_cons_fail h
    rw [feed_int] at hstep hfail
    rw [IntState.handleData]
    split_ifs at hstep hfail ⊢ with h1 h2 h3 h4 h5 h6 h7 h8
    · exact hfail rfl
    · exact hstep _ _ rfl
    · exact hfail rfl
    · exact hstep _ _ rfl
    · split at hfail
      · exact hfail rfl
      · rename_i hdigit
        exact hstep _ _ (by rw [hdigit])
    · exact hstep _ _ rfl
    · exact hfail rfl
    · have hfeed : feed acceptShort (.int kind phase value) ch = IntState.finish kind value := by
        rw [feed_int, if_neg h1, if_neg h3, if_neg h5, if_neg h6, if_pos h7, if_neg h8]
      rcases hfin : IntState.finish kind value with s | v | _ <;> rw [hfin] at hfeed
      · exact ⟨[ch], rfl, by rw [advance_cons_next hfeed]; rfl⟩
      · exact run_cons_done hfeed
      · exact run_cons_fail hfeed
    · exact hfail rfl

theorem intState_shrinks (kind : Kind) (phase : Phase) (value : Int) {data : Bytes} (hdata : data ≠ []) :
    Shrinks data (IntState.handleData kind phase value data) := by
  induction data generalizing phase value with
  | nil => exact absurd rfl hdata
  | cons ch data ih =>
    have hrec : ∀ phase' value', Shrinks (ch :: data) (IntState.handleData kind phase' value' data) := by
      intro phase' value' s rest h
      rcases eq_or_ne data [] with rfl | hne
      · cases h
        exact Nat.lt_succ_self _
      · exact Nat.lt_succ_of_lt (ih phase' value' hne s rest h)
    have hfail : ∀ s, Shrinks (ch :: data) (.fail s data) := fun s s' rest h => by cases h
    rw [IntState.handleData]
    split_ifs
    · exact hfail _
    · exact hrec _ _
    · exact hfail _
    · exact hrec _ _
    · split
      · exact hfail _
      · exact hrec _ _
    · exact hrec _ _
    · exact hfail _
    · intro s rest h
      split at h <;> cases h
      exact Nat.lt_succ_self _
    · exact hfail _

/-! ### Arrays -/

theorem run_array (acceptShort : Bool) (size : Nat) (hsize : 0 < size) (value : Segment) (parser : State)
    (data : Bytes) :
    run (feed acceptShort) (.array size hsize value parser) data =
      match run (feed false) parser data with
      | .more parser' rest => .more (.array size hsize value parser') rest
      | .done v rest =>
        if h : size - 1 = 0 then .done (.vector (value ++ [v])) rest
        else run (feed acceptShort) (.array (size - 1) (Nat.pos_of_ne_zero h) (value ++ [v]) .root) rest
      | .fail parser' rest => .fail (.array size hsize value parser') rest := by
  induction data generalizing parser with
  | nil => rfl
  | cons ch data ih =>
    rw [run, run, feed_array]
    rcases feed false parser ch with parser' | v | _
    · exact ih parser'
    · simp only
      split_ifs <;> rfl
    · rfl

theorem depth_finish {kind : Kind} {value : Int} {s : State} (h : IntState.finish kind value = .next s) :
    s.depth ≤ 1 := by
  cases kind <;> simp only [IntState.finish] at h
  · cases h
  · split_ifs at h
    cases h
    simp [State.depth]
  · split_ifs at h
    cases h
    simp [State.depth]

theorem depth_feed {acceptShort : Bool} {s s' : State} {ch : UInt8} (h : feed acceptShort s ch = .next s') :
    s'.depth ≤ s.depth + 1 := by
  induction s generalizing acceptShort s' with
  | root =>
    rw [feed_root, RootState.select] at h
    split_ifs at h <;> cases h <;> simp [State.depth]
  | string success value =>
    rw [feed_string] at h
    split_ifs at h <;> cases h <;> simp [State.depth]
  | int kind phase value =>
    rw [feed_int] at h
    split_ifs at h
    · cases h
      simp [State.depth]
    · cases h
      simp [State.depth]
    · split at h <;> cases h
      simp [State.depth]
    · cases h
      simp [State.depth]
    · exact (depth_finish h).trans (Nat.le_add_left _ _)
  | bulk size value =>
    rcases size with _ | size
    · rw [feed_bulk_zero] at h
      split_ifs at h
      cases h
      simp [State.depth]
    · cases h
      simp [State.depth]
  | array size hsize value parser ih =>
    rw [feed_array] at h
    rcases hp : feed false parser ch with parser' | v | _ <;> rw [hp] at h
    · cases h
      have := ih hp
      simp only [State.depth]
      omega
    · simp only at h
      split_ifs at h
      cases h
      simp [State.depth]
    · cases h
  | short accumulator value =>
    rw [feed_short] at h
    split_ifs at h <;> cases h <;> simp [State.depth]

theorem depth_advance {acceptShort : Bool} {s s' : State} {data : Bytes}
    (h : advance (feed acceptShort) s data = some s') : s'.depth ≤ s.depth + data.length := by
  induction data generalizing s with
  | nil => cases h; simp
  | cons ch data ih =>
    rw [advance] at h
    rcases hf : feed acceptShort s ch with t | v | _ <;> rw [hf] at h
    · have hfirst := depth_feed hf
      have hrest := ih h
      rw [List.length_cons]
      omega
    · cases h
    · cases h

/-! ### The loops -/

/-- What `State::handleData` promises with enough fuel. -/
def StateSpec (fuel : Nat) : Prop :=
  ∀ acceptShort (s : State) data, data ≠ [] → 4 * data.length + 3 * s.depth + 1 ≤ fuel →
    ∃ r, State.handleData fuel acceptShort s data = some r ∧ Reaches (feed acceptShort) s data r ∧
      Shrinks data r

/-- What `ArrayState::handleData` promises with enough fuel. -/
def ArraySpec (fuel : Nat) : Prop :=
  ∀ acceptShort size hsize value (parser : State) data, 4 * data.length + 3 * parser.depth + 3 ≤ fuel →
    arrayLoop fuel size value parser data =
      some (run (feed acceptShort) (.array size hsize value parser) data)

/-- What `Parser::handleData` promises with enough fuel. -/
def ParserSpec (fuel : Nat) : Prop :=
  ∀ acceptShort (s : State) data, 4 * data.length + 3 * s.depth + 2 ≤ fuel →
    parserLoop fuel acceptShort s data = some (run (feed acceptShort) s data)

theorem stateSpec_succ {fuel : Nat} (harray : ArraySpec fuel) : StateSpec (fuel + 1) := by
  intro acceptShort s data hdata hfuel
  have hrun : ∀ r, r = run (feed acceptShort) s data →
      ∃ r', some r = some r' ∧ Reaches (feed acceptShort) s data r' ∧ Shrinks data r' := by
    intro r hr
    exact ⟨r, rfl, hr ▸ reaches_run s data, hr ▸ shrinks_run hdata⟩
  cases s with
  | root => exact ⟨_, rfl, rootState_reaches acceptShort data, rootState_shrinks acceptShort hdata⟩
  | string success value => exact hrun _ (stringState_eq_run acceptShort success value data)
  | int kind phase value =>
    exact ⟨_, rfl, intState_reaches acceptShort kind phase value data, intState_shrinks kind phase value hdata⟩
  | bulk size value => exact hrun _ (bulkState_eq_run acceptShort size value data)
  | array size hsize value parser =>
    rw [State.depth] at hfuel
    rw [State.handleData, harray acceptShort size hsize value parser data (by omega)]
    exact hrun _ rfl
  | short accumulator value => exact hrun _ (shortState_eq_run acceptShort accumulator value data)

theorem arraySpec_succ {fuel : Nat} (hparser : ParserSpec fuel) (harray : ArraySpec fuel) :
    ArraySpec (fuel + 1) := by
  intro acceptShort size hsize value parser data hfuel
  rw [arrayLoop, dif_neg hsize.ne']
  rcases eq_or_ne data [] with rfl | hdata
  · rfl
  rw [if_neg hdata, hparser false parser data (by omega), run_array]
  rcases hr : run (feed false) parser data with ⟨parser', rest⟩ | ⟨v, rest⟩ | ⟨parser', rest⟩
  · obtain rfl := run_more_rest hr
    -- the loop ends because the data is used up
    obtain ⟨n, rfl⟩ : ∃ n, fuel = n + 1 := ⟨fuel - 1, by omega⟩
    simp only
    rw [arrayLoop, dif_neg hsize.ne', if_pos rfl]
  · have hlen := run_done_length hr
    simp only
    split_ifs with hlast
    · obtain ⟨n, rfl⟩ : ∃ n, fuel = n + 1 := ⟨fuel - 1, by omega⟩
      rw [arrayLoop, dif_pos hlast]
    · refine harray acceptShort (size - 1) (Nat.pos_of_ne_zero hlast) (value ++ [v]) .root rest ?_
      simp only [State.depth]
      omega
  · rfl

theorem parserSpec_succ {fuel : Nat} (hstate : StateSpec fuel) (hparser : ParserSpec fuel) :
    ParserSpec (fuel + 1) := by
  intro acceptShort s data hfuel
  rw [parserLoop]
  rcases eq_or_ne data [] with rfl | hdata
  · rfl
  obtain ⟨r, hr, hreach, hshrink⟩ := hstate acceptShort s data hdata (by omega)
  rw [if_neg hdata, hr]
  rcases r with ⟨s', rest⟩ | ⟨v, rest⟩ | ⟨s', rest⟩
  · obtain ⟨used, rfl, hused⟩ := hreach
    have hrest := hshrink s' rest rfl
    have hdepth := depth_advance hused
    simp only [List.length_append] at hfuel hrest
    simp only
    rw [hparser acceptShort s' rest (by omega), run_of_advance hused]
  · exact congrArg some hreach.symm
  · exact congrArg some hreach.symm

theorem specs (fuel : Nat) : StateSpec fuel ∧ ArraySpec fuel ∧ ParserSpec fuel := by
  induction fuel with
  | zero =>
    refine ⟨?_, ?_, ?_⟩
    · intro _ _ _ _ hfuel
      omega
    · intro _ _ _ _ _ _ hfuel
      omega
    · intro _ _ _ hfuel
      omega
  | succ fuel ih =>
    obtain ⟨hstate, harray, hparser⟩ := ih
    exact ⟨stateSpec_succ harray, arraySpec_succ hparser harray, parserSpec_succ hstate hparser⟩

theorem parserLoop_eq_run {fuel : Nat} (acceptShort : Bool) (s : State) (data : Bytes)
    (hfuel : 4 * data.length + 3 * s.depth + 2 ≤ fuel) :
    parserLoop fuel acceptShort s data = some (run (feed acceptShort) s data) :=
  (specs fuel).2.2 acceptShort s data hfuel

/-- **The parser is a byte machine.** A call does to a piece what `feed` does to its bytes. -/
theorem handleData_eq_run (acceptShort : Bool) (s : State) (data : Bytes) :
    Parser.handleData acceptShort s data = run (feed acceptShort) s data := by
  rw [Parser.handleData, parserLoop_eq_run acceptShort s data le_rfl, Option.getD_some]

/-- A caller that has the data in pieces calls `Parser::handleData` until a call returns true or throws; the later
pieces are then not handed over. -/
def handlePieces (acceptShort : Bool) : State → List Bytes → Outcome
  | state, [] => .more state []
  | state, piece :: pieces =>
    match Parser.handleData acceptShort state piece with
    | .more state' _ => handlePieces acceptShort state' pieces
    | .done v rest => .done v (rest ++ pieces.flatten)
    | .fail state' rest => .fail state' (rest ++ pieces.flatten)

/-- **Packet boundaries do not matter.** However the data is cut, the pieces give the value, the error, the state
and the unconsumed rest that a single call gives. -/
theorem handlePieces_eq_handleData (acceptShort : Bool) (state : State) (pieces : List Bytes) :
    handlePieces acceptShort state pieces = Parser.handleData acceptShort state pieces.flatten := by
  induction pieces generalizing state with
  | nil => rw [handlePieces, handleData_eq_run, List.flatten_nil, run_nil]
  | cons piece pieces ih =>
    rw [handlePieces, handleData_eq_run, handleData_eq_run, List.flatten_cons, run_append]
    rcases run (feed acceptShort) state piece with ⟨state', rest⟩ | ⟨v, rest⟩ | ⟨state', rest⟩
    · simp only
      rw [ih, handleData_eq_run]
    · rfl
    · rfl

end Afl.Io.Resp
