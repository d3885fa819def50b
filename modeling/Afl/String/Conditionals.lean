import Afl.String.Format

/-!
# Conditionals in format strings

A format string whose conditionals are nested has a recursive reading; formatting goes through it from one end to the other,
with one bit per open conditional. The results say when both agree.
-/

namespace Afl.Format

/-! ### Readings -/

/-- Text up to a percent sign, or a directive. -/
inductive Token
  | text (t : Bytes)
  | placeholder (d : Directive)
  | startCondition (d : Directive)
  | switchCondition (d : Directive)
  | endCondition (d : Directive)
deriving DecidableEq

def Directive.token (d : Directive) : Token :=
  if d.code = 123 then .startCondition d
  else if d.code = 124 then .switchCondition d
  else if d.code = 125 then .endCondition d
  else .placeholder d

def tokens (p : Bytes) : List Token :=
  match _h : p.findIdx? (· = 37) with
  | none => [.text p]
  | some n =>
    .text (p.take n) ::
      match _hd : readDirective none true (p.drop (n + 1)) with
      | none => []
      | some (d, rest) => d.token :: tokens rest
termination_by p.length
decreasing_by
  have hrest := length_readDirective _hd
  rw [List.length_drop] at hrest
  omega

/-- A well-nested format string. -/
inductive Reading
  | nil
  | text (t : Bytes) (rest : Reading)
  | placeholder (d : Directive) (rest : Reading)
  | conditional (start : Directive) (first : Reading) (stop : Directive) (rest : Reading)
  | alternatives (start : Directive) (first : Reading) (switch : Directive) (second : Reading) (stop : Directive) (rest : Reading)

namespace Reading

def tokens : Reading → List Token
  | nil => []
  | text t rest => .text t :: rest.tokens
  | placeholder d rest => .placeholder d :: rest.tokens
  | conditional start first stop rest =>
    .startCondition start :: (first.tokens ++ .endCondition stop :: rest.tokens)
  | alternatives start first switch second stop rest =>
    .startCondition start ::
      (first.tokens ++ .switchCondition switch :: (second.tokens ++ .endCondition stop :: rest.tokens))

def depth : Reading → Nat
  | nil => 0
  | text _ rest => rest.depth
  | placeholder _ rest => rest.depth
  | conditional _ first _ rest => max (first.depth + 1) rest.depth
  | alternatives _ first _ second _ rest => max (max first.depth second.depth + 1) rest.depth

def conditionals : Reading → Nat
  | nil => 0
  | text _ rest => rest.conditionals
  | placeholder _ rest => rest.conditionals
  | conditional _ first _ rest => first.conditionals + 1 + rest.conditionals
  | alternatives _ first _ second _ rest => first.conditionals + second.conditionals + 1 + rest.conditionals

end Reading

def Directive.holds (d : Directive) (conditions : Finset (Fin 32)) : Bool := decide (d.condition ∈ conditions) == d.shown

/-- What a format string means. An `index$` of the directives that make up a conditional belongs to the conditional. -/
def Reading.render (args : List Formatter) : Reading → Output → Output
  | nil, o => o
  | text t rest, o => rest.render args (o.append t)
  | placeholder d rest, o => rest.render args ((o.setIndex d).placeholder args d)
  | conditional start first stop rest, o =>
    let o := o.setIndex start
    let o := if start.holds o.conditions then first.render args o else o
    rest.render args (o.setIndex stop)
  | alternatives start first switch second stop rest, o =>
    let o := o.setIndex start
    let o :=
      if start.holds o.conditions then (first.render args o).setIndex switch
      else second.render args (o.setIndex switch)
    rest.render args (o.setIndex stop)

/-- The text is what the reading gives, and the arguments are used as it says. -/
structure Conforms (args : List Formatter) (fmt : Bytes) (r : Reading) : Prop where
  result : (format fmt args).result = (r.render args .start).result
  given : (format fmt args).given = (r.render args .start).given

/-! ### Conditionals that end selected -/

/-- How many conditionals end with a branch that is selected. -/
def Reading.ended (args : List Formatter) : Reading → Output → Nat
  | nil, _ => 0
  | text t rest, o => rest.ended args (o.append t)
  | placeholder d rest, o => rest.ended args ((o.setIndex d).placeholder args d)
  | conditional start first stop rest, o =>
    let o := o.setIndex start
    if start.holds o.conditions then first.ended args o + 1 + rest.ended args ((first.render args o).setIndex stop)
    else rest.ended args (o.setIndex stop)
  | alternatives start first switch second stop rest, o =>
    let o := o.setIndex start
    if start.holds o.conditions then
      first.ended args o + rest.ended args (((first.render args o).setIndex switch).setIndex stop)
    else
      second.ended args (o.setIndex switch) + 1 +
        rest.ended args ((second.render args (o.setIndex switch)).setIndex stop)

/-- No `%|` outside skipped branches is met when the conditionals that are open or have ended selected are a multiple of
`2 ^ 32`. Before the reading, there are `n` of them. -/
def Reading.Noticed (args : List Formatter) : Reading → Output → Nat → Prop
  | nil, _, _ => True
  | text t rest, o, n => rest.Noticed args (o.append t) n
  | placeholder d rest, o, n => rest.Noticed args ((o.setIndex d).placeholder args d) n
  | conditional start first stop rest, o, n =>
    let o := o.setIndex start
    if start.holds o.conditions then
      first.Noticed args o (n + 1) ∧
        rest.Noticed args ((first.render args o).setIndex stop) (n + 1 + first.ended args o)
    else rest.Noticed args (o.setIndex stop) n
  | alternatives start first switch second stop rest, o, n =>
    let o := o.setIndex start
    if start.holds o.conditions then
      first.Noticed args o (n + 1) ∧ ¬2 ^ 32 ∣ n + 1 + first.ended args o ∧
        rest.Noticed args (((first.render args o).setIndex switch).setIndex stop) (n + first.ended args o)
    else
      ¬2 ^ 32 ∣ n + 1 ∧ second.Noticed args (o.setIndex switch) (n + 1) ∧
        rest.Noticed args ((second.render args (o.setIndex switch)).setIndex stop)
          (n + 1 + second.ended args (o.setIndex switch))

theorem Reading.ended_le (args : List Formatter) (r : Reading) (o : Output) : r.ended args o ≤ r.conditionals := by
  induction r generalizing o with
  | nil => exact Nat.le_refl _
  | text t rest ih => exact ih _
  | placeholder d rest ih => exact ih _
  | conditional start first stop rest ihfirst ihrest =>
    rw [ended, conditionals]
    split_ifs
    · exact Nat.add_le_add (Nat.add_le_add_right (ihfirst _) 1) (ihrest _)
    · exact (ihrest _).trans (Nat.le_add_left _ _)
  | alternatives start first switch second stop rest ihfirst ihsecond ihrest =>
    rw [ended, conditionals]
    split_ifs
    · exact Nat.add_le_add ((ihfirst _).trans (by omega)) (ihrest _)
    · exact Nat.add_le_add (Nat.add_le_add_right ((ihsecond _).trans (Nat.le_add_left _ _)) 1) (ihrest _)

/-- There are too few conditionals in a string that fits into less than 16 GiB. -/
theorem Reading.noticed_of_lt (args : List Formatter) (r : Reading) (o : Output) {n : Nat}
    (h : n + r.conditionals < 2 ^ 32) : r.Noticed args o n := by
  have hdvd : ∀ {m : Nat}, 0 < m → m < 2 ^ 32 → ¬2 ^ 32 ∣ m := fun hpos hlt => Nat.not_dvd_of_pos_of_lt hpos hlt
  induction r generalizing o n with
  | nil => trivial
  | text t rest ih => exact ih _ h
  | placeholder d rest ih => exact ih _ h
  | conditional start first stop rest ihfirst ihrest =>
    rw [conditionals] at h
    have hfirst := first.ended_le args (o.setIndex start)
    rw [Noticed]
    split_ifs
    · exact ⟨ihfirst _ (by omega), ihrest _ (by omega)⟩
    · exact ihrest _ (by omega)
  | alternatives start first switch second stop rest ihfirst ihsecond ihrest =>
    rw [conditionals] at h
    have hfirst := first.ended_le args (o.setIndex start)
    have hsecond := second.ended_le args ((o.setIndex start).setIndex switch)
    rw [Noticed]
    split_ifs
    · exact ⟨ihfirst _ (by omega), hdvd (by omega) (by omega), ihrest _ (by omega)⟩
    · exact ⟨hdvd (by omega) (by omega), ihsecond _ (by omega), ihrest _ (by omega)⟩

/-! ### Indexes in branches that are not selected -/

def Directive.moveIndex (d : Directive) (index : Nat) : Nat := d.index.elim index UInt64.toNat

/-- The index after all of a reading, as far as it is set there. -/
def Reading.lastIndex : Reading → Nat → Nat
  | nil, index => index
  | text _ rest, index => rest.lastIndex index
  | placeholder d rest, index => rest.lastIndex (d.moveIndex index)
  | conditional start first stop rest, index =>
    rest.lastIndex (stop.moveIndex (first.lastIndex (start.moveIndex index)))
  | alternatives start first switch second stop rest, index =>
    rest.lastIndex
      (stop.moveIndex (second.lastIndex (switch.moveIndex (first.lastIndex (start.moveIndex index)))))

def argument (args : List Formatter) (index : Nat) : Option Nat := if index < args.length then some index else none

def nextIndex (args : List Formatter) (index : Nat) : Nat := if index < args.length then index + 1 else index

/-- The output, and the next argument if the indexes in branches that are not selected were followed, too. There is no result
when a placeholder would be given another argument. -/
def Reading.follow (args : List Formatter) : Reading → Output → Nat → Option (Output × Nat)
  | nil, o, index => some (o, index)
  | text t rest, o, index => rest.follow args (o.append t) index
  | placeholder d rest, o, index =>
    let o := o.setIndex d
    let index := d.moveIndex index
    if d.code = 37 then rest.follow args (o.placeholder args d) index
    else if argument args index = argument args o.argIndex then
      rest.follow args (o.placeholder args d) (nextIndex args index)
    else none
  | conditional start first stop rest, o, index =>
    let o := o.setIndex start
    let index := start.moveIndex index
    (if start.holds o.conditions then first.follow args o index else some (o, first.lastIndex index)).bind fun (o, index) =>
      rest.follow args (o.setIndex stop) (stop.moveIndex index)
  | alternatives start first switch second stop rest, o, index =>
    let o := o.setIndex start
    let index := start.moveIndex index
    (if start.holds o.conditions then
      (first.follow args o index).map fun (o, index) => (o.setIndex switch, second.lastIndex (switch.moveIndex index))
    else second.follow args (o.setIndex switch) (switch.moveIndex (first.lastIndex index))).bind fun (o, index) =>
      rest.follow args (o.setIndex stop) (stop.moveIndex index)

/-- Every placeholder has the argument that it would also have if the indexes in branches that are not selected counted. -/
def Reading.Undisturbed (args : List Formatter) (r : Reading) : Prop := (r.follow args .start 0).isSome

instance (args : List Formatter) (r : Reading) : Decidable (r.Undisturbed args) := inferInstanceAs (Decidable (_ = true))

/-! ### Parts -/

variable {args : List Formatter}

namespace Output

def withIndex (o : Output) (index : Nat) : Output := { o with argIndex := index }

theorem setIndex_withIndex (o : Output) (index : Nat) (d : Directive) :
    (o.withIndex index).setIndex d = (o.setIndex d).withIndex (d.moveIndex index) := rfl

theorem insertPadded_given (o : Output) (d : Directive) (flags : Finset FormatFlag) (here : Bytes) :
    (o.insertPadded d flags here).given = o.given := by
  rw [insertPadded]
  split_ifs <;> rfl

theorem insertPadded_withIndex (o : Output) (index : Nat) (d : Directive) (flags : Finset FormatFlag) (here : Bytes) :
    (o.withIndex index).insertPadded d flags here = (o.insertPadded d flags here).withIndex index := by
  rw [insertPadded, insertPadded]
  split_ifs <;> rfl

theorem placeholder_percent {d : Directive} (h : d.code = 37) (o : Output) (index : Nat) :
    (o.withIndex index).placeholder args d = (o.placeholder args d).withIndex index := by
  rw [placeholder, placeholder, if_pos h, if_pos h, insertPadded_withIndex]

theorem placeholder_given (args : List Formatter) {d : Directive} (h : d.code ≠ 37) (o : Output) :
    (o.placeholder args d).given = o.given ++ [argument args o.argIndex] := by
  rw [placeholder, if_neg h, argument]
  split
  · next hnone =>
    rw [insertPadded_given, if_neg (Nat.not_lt.2 (List.getElem?_eq_none_iff.1 hnone))]
  · next format hsome =>
    rw [insertPadded_given, if_pos (List.getElem?_eq_some_iff.1 hsome).1]

theorem given_prefix_placeholder (args : List Formatter) (o : Output) (d : Directive) : o.given <+: (o.placeholder args d).given := by
  by_cases h : d.code = 37
  · rw [placeholder, if_pos h, insertPadded_given]
  · rw [placeholder_given args h]
    exact List.prefix_append _ _

theorem insertPadded_argIndex (o : Output) (d : Directive) (flags : Finset FormatFlag) (here : Bytes) :
    (o.insertPadded d flags here).argIndex = o.argIndex := by
  rw [insertPadded]
  split_ifs <;> rfl

theorem placeholder_argIndex {d : Directive} (h : d.code ≠ 37) (o : Output) :
    (o.placeholder args d).argIndex = nextIndex args o.argIndex := by
  rw [placeholder, if_neg h, nextIndex]
  split
  · next hnone =>
    rw [insertPadded_argIndex, if_neg (Nat.not_lt.2 (List.getElem?_eq_none_iff.1 hnone))]
  · next format hsome =>
    rw [insertPadded_argIndex, if_pos (List.getElem?_eq_some_iff.1 hsome).1]

theorem placeholder_withIndex {d : Directive} (h : d.code ≠ 37) {o : Output} {index : Nat}
    (hargument : argument args index = argument args o.argIndex) :
    (o.withIndex index).placeholder args d = (o.placeholder args d).withIndex (nextIndex args index) := by
  rw [argument, argument] at hargument
  by_cases hindex : index < args.length
  · rw [if_pos hindex] at hargument
    split_ifs at hargument
    obtain rfl := Option.some.inj hargument
    rw [← placeholder_argIndex h]
    rfl
  · rw [if_neg hindex] at hargument
    split_ifs at hargument with hargIndex
    have hnone : args[(o.withIndex index).argIndex]? = none := List.getElem?_eq_none_iff.2 (Nat.not_lt.1 hindex)
    have hnone' : args[o.argIndex]? = none := List.getElem?_eq_none_iff.2 (Nat.not_lt.1 hargIndex)
    rw [placeholder, if_neg h, hnone, placeholder, if_neg h, hnone', nextIndex, if_neg hindex, ← insertPadded_withIndex]
    rfl

end Output

/-! ### One bit per conditional -/

theorem toNat_shiftLeft_one {c : UInt32} (h : c.toNat < 2 ^ 31) : (c <<< 1).toNat = 2 * c.toNat := by
  have hone : (1 : UInt32).toNat = 1 := rfl
  have hpow : 2 ^ (1 % 32) = 2 := rfl
  rw [UInt32.toNat_shiftLeft, hone, Nat.shiftLeft_eq, hpow]
  omega

theorem half_start {c : UInt32} (h : c.toNat < 2 ^ 31) (b : Bool) :
    (if b then c <<< 1 ||| 1 else c <<< 1).toNat / 2 = c.toNat := by
  have hone : (1 : UInt32).toNat = 1 := rfl
  cases b with
  | false =>
    rw [if_neg Bool.false_ne_true, toNat_shiftLeft_one h]
    omega
  | true =>
    rw [if_pos rfl, UInt32.toNat_or, Nat.or_div_two, toNat_shiftLeft_one h, hone]
    simp

theorem half_switch (c : UInt32) : (c ^^^ 1).toNat / 2 = c.toNat / 2 := by
  have hone : (1 : UInt32).toNat = 1 := rfl
  rw [UInt32.toNat_xor, Nat.xor_div_two, hone]
  simp

theorem shiftRight_one {c c' : UInt32} (h : c'.toNat / 2 = c.toNat) : c' >>> 1 = c := by
  have hone : (1 : UInt32).toNat = 1 := rfl
  apply UInt32.toNat_inj.1
  rw [UInt32.toNat_shiftRight, hone, ← h]
  simp [Nat.shiftRight_eq_div_pow]

theorem ne_zero_of_half {c c' : UInt32} (h : c'.toNat / 2 = c.toNat) (hc : c ≠ 0) : c' ≠ 0 := by
  rintro rfl
  apply hc
  apply UInt32.toNat_inj.1
  rw [← h]
  rfl

/-- There is room for `n` more conditionals. -/
def Room (c : UInt32) (n : Nat) : Prop := (c.toNat + 1) * 2 ^ n ≤ 2 ^ 32

theorem Room.half {c c' : UInt32} {n : Nat} (h : Room c (n + 1)) (hc : c'.toNat / 2 = c.toNat) : Room c' n := by
  have hle : c'.toNat + 1 ≤ 2 * (c.toNat + 1) := by omega
  calc (c'.toNat + 1) * 2 ^ n ≤ 2 * (c.toNat + 1) * 2 ^ n := Nat.mul_le_mul_right _ hle
    _ = (c.toNat + 1) * 2 ^ (n + 1) := by rw [Nat.pow_succ]; ring
    _ ≤ 2 ^ 32 := h

theorem Room.lt {c : UInt32} {n : Nat} (h : Room c (n + 1)) : c.toNat < 2 ^ 31 := by
  have hpos := Nat.two_pow_pos n
  have hle : (c.toNat + 1) * 2 ≤ (c.toNat + 1) * 2 ^ (n + 1) := by
    rw [Nat.pow_succ]
    exact Nat.mul_le_mul_left _ (by omega)
  have hroom : (c.toNat + 1) * 2 ^ (n + 1) ≤ 2 ^ 32 := h
  omega

theorem room_one : Room 1 31 := by
  rw [Room]
  decide

/-! ### Parts that are skipped -/

namespace Rendering

def step (args : List Formatter) (s : Rendering) : Token → Rendering
  | .text t => s.text t
  | .placeholder d => { s with toOutput := s.toOutput.setIndex d }.placeholder args d
  | .startCondition d => { s with toOutput := s.toOutput.setIndex d }.startCondition d
  | .switchCondition d => { s with toOutput := s.toOutput.setIndex d }.switchCondition
  | .endCondition d => { s with toOutput := s.toOutput.setIndex d }.endCondition

variable {o : Output} {c level : UInt32}

theorem step_startCondition (args : List Formatter) (o : Output) (level : UInt32) (hc : c.toNat < 2 ^ 31) (d : Directive) :
    ∃ c', c'.toNat / 2 = c.toNat ∧ step args ⟨o, c, level⟩ (.startCondition d) = ⟨o.setIndex d, c', level + 1⟩ :=
  ⟨_, half_start hc _, rfl⟩

theorem step_switchCondition (args : List Formatter) (o : Output) (c level : UInt32) (d : Directive) :
    ∃ c', c'.toNat / 2 = c.toNat / 2 ∧ step args ⟨o, c, level⟩ (.switchCondition d) = ⟨o.setIndex d, c', level⟩ := by
  rw [step, switchCondition]
  split_ifs
  · exact ⟨_, half_switch c, rfl⟩
  · exact ⟨c, rfl, rfl⟩

theorem step_endCondition {c' : UInt32} (hc : c ≠ 0) (hhalf : c.toNat / 2 = c'.toNat) (d : Directive) :
    step args ⟨o, c, level⟩ (.endCondition d) = ⟨o.setIndex d, c', level - 1⟩ := by
  rw [step, endCondition, if_pos hc, ← shiftRight_one hhalf]

theorem add_one_sub_one (n : UInt32) : n + 1 - 1 = n := by
  simp

theorem foldl_skipped (r : Reading) {n : Nat} (hdepth : r.depth ≤ n) (hroom : Room c n) (hc : c ≠ 0) :
    r.tokens.foldl (step args) ⟨o, c, level⟩ = ⟨o.withIndex (r.lastIndex o.argIndex), c, level⟩ := by
  induction r generalizing o c level n with
  | nil => rfl
  | text t rest ih =>
    have hstep : step args ⟨o, c, level⟩ (.text t) = ⟨o, c, level⟩ := if_neg hc
    rw [Reading.tokens, List.foldl_cons, hstep, ih hdepth hroom hc, Reading.lastIndex]
  | placeholder d rest ih =>
    have hstep : step args ⟨o, c, level⟩ (.placeholder d) = ⟨o.setIndex d, c, level⟩ := if_neg hc
    rw [Reading.tokens, List.foldl_cons, hstep, ih hdepth hroom hc, Reading.lastIndex]
    rfl
  | conditional start first stop rest ihfirst ihrest =>
    rw [Reading.depth] at hdepth
    obtain ⟨n, rfl⟩ : ∃ n', n = n' + 1 := ⟨n - 1, by omega⟩
    obtain ⟨c₁, hc₁, hstart⟩ := step_startCondition args o level hroom.lt start
    have hne := ne_zero_of_half hc₁ hc
    have hfirst : first.depth ≤ n := by omega
    rw [Reading.tokens, List.foldl_cons, hstart, List.foldl_append, ihfirst hfirst (hroom.half hc₁) hne, List.foldl_cons,
      step_endCondition hne hc₁, add_one_sub_one, ihrest (by omega) hroom hc, Reading.lastIndex]
    rfl
  | alternatives start first switch second stop rest ihfirst ihsecond ihrest =>
    rw [Reading.depth] at hdepth
    obtain ⟨n, rfl⟩ : ∃ n', n = n' + 1 := ⟨n - 1, by omega⟩
    obtain ⟨c₁, hc₁, hstart⟩ := step_startCondition args o level hroom.lt start
    have hne := ne_zero_of_half hc₁ hc
    have hfirst : first.depth ≤ n := by omega
    have hsecond : second.depth ≤ n := by omega
    obtain ⟨c₂, hc₂, hswitch⟩ := step_switchCondition args
      ((o.setIndex start).withIndex (first.lastIndex (o.setIndex start).argIndex)) c₁ (level + 1) switch
    rw [hc₁] at hc₂
    have hne₂ := ne_zero_of_half hc₂ hc
    rw [Reading.tokens, List.foldl_cons, hstart, List.foldl_append, ihfirst hfirst (hroom.half hc₁) hne, List.foldl_cons,
      hswitch, List.foldl_append, ihsecond hsecond (hroom.half hc₂) hne₂, List.foldl_cons,
      step_endCondition hne₂ hc₂, add_one_sub_one, ihrest (by omega) hroom hc, Reading.lastIndex]
    rfl

/-! ### Parts that are selected -/

theorem given_prefix_step (args : List Formatter) (s : Rendering) (t : Token) : s.given <+: (s.step args t).given := by
  cases t with
  | text t =>
    rw [step, text]
    split_ifs <;> exact List.prefix_rfl
  | placeholder d =>
    rw [step, placeholder]
    split_ifs
    · exact (s.toOutput.setIndex d).given_prefix_placeholder args d
    · exact List.prefix_rfl
  | startCondition d => exact List.prefix_rfl
  | switchCondition d =>
    rw [step, switchCondition]
    split_ifs <;> exact List.prefix_rfl
  | endCondition d =>
    rw [step, endCondition]
    split_ifs <;> exact List.prefix_rfl

theorem given_prefix_foldl (args : List Formatter) (s : Rendering) (ts : List Token) : s.given <+: (ts.foldl (step args) s).given := by
  induction ts generalizing s with
  | nil => exact List.prefix_rfl
  | cons t ts ih => exact (s.given_prefix_step args t).trans (ih _)

theorem step_start (args : List Formatter) (o : Output) (index : Nat) (level : UInt32) (d : Directive) :
    step args ⟨o.withIndex index, 0, level⟩ (.startCondition d) =
      ⟨(o.setIndex d).withIndex (d.moveIndex index), if d.holds o.conditions then 0 else 1, level + 1⟩ := by
  have hzero : (0 : UInt32) <<< 1 = 0 := rfl
  have hone : (0 : UInt32) ||| 1 = 1 := rfl
  have hconditions : ((o.withIndex index).setIndex d).conditions = o.conditions := rfl
  rw [step, startCondition, Directive.holds]
  dsimp only
  rw [hzero, hone, hconditions, Output.setIndex_withIndex]
  by_cases hmem : d.condition ∈ o.conditions
  · cases d.shown <;> simp [hmem]
  · cases d.shown <;> simp [hmem]

theorem step_switch_selected {level : UInt32} (hlevel : level ≠ 0) (args : List Formatter) (o : Output) (c : UInt32)
    (d : Directive) : step args ⟨o, c, level⟩ (.switchCondition d) = ⟨o.setIndex d, c ^^^ 1, level⟩ := if_pos hlevel

theorem step_end_skipped (args : List Formatter) (o : Output) (level : UInt32) (d : Directive) :
    step args ⟨o, 1, level⟩ (.endCondition d) = ⟨o.setIndex d, 0, level - 1⟩ :=
  step_endCondition (by decide) (by decide) d

end Rendering

theorem given_prefix_render (args : List Formatter) (r : Reading) (o : Output) : o.given <+: (r.render args o).given := by
  induction r generalizing o with
  | nil => exact List.prefix_rfl
  | text t rest ih => exact ih (o.append t)
  | placeholder d rest ih => exact ((o.setIndex d).given_prefix_placeholder args d).trans (ih _)
  | conditional start first stop rest ihfirst ihrest =>
    rw [Reading.render]
    refine List.IsPrefix.trans ?_ (ihrest _)
    split_ifs
    · exact ihfirst (o.setIndex start)
    · exact List.prefix_rfl
  | alternatives start first switch second stop rest ihfirst ihsecond ihrest =>
    rw [Reading.render]
    refine List.IsPrefix.trans ?_ (ihrest _)
    split_ifs
    · exact ihfirst (o.setIndex start)
    · exact ihsecond ((o.setIndex start).setIndex switch)

/-- Both lists differ at the same place. -/
def Diverge (l l' : List (Option Nat)) : Prop := ∃ t x y, x ≠ y ∧ t ++ [x] <+: l ∧ t ++ [y] <+: l'

theorem Diverge.mono {l l' k k' : List (Option Nat)} (h : Diverge l l') (hl : l <+: k) (hl' : l' <+: k') : Diverge k k' := by
  obtain ⟨t, x, y, hne, hx, hy⟩ := h
  exact ⟨t, x, y, hne, hx.trans hl, hy.trans hl'⟩

theorem Diverge.ne {l l' : List (Option Nat)} (h : Diverge l l') : l ≠ l' := by
  rintro rfl
  obtain ⟨t, x, y, hne, hx, hy⟩ := h
  have heq : t ++ [x] = t ++ [y] := (List.prefix_of_prefix_length_le hx hy (by simp)).eq_of_length (by simp)
  exact hne (List.cons.inj (List.append_cancel_left heq)).1

open Rendering

/-- What comes of a reading of which nothing has been skipped, when `index` is the next argument of the code. -/
def Outcome (args : List Formatter) (r : Reading) (o : Output) (index n : Nat) : Option (Output × Nat) → Prop
  | some (o', index') =>
    r.render args o = o' ∧ r.tokens.foldl (step args) ⟨o.withIndex index, 0, UInt32.ofNat n⟩ =
      ⟨o'.withIndex index', 0, UInt32.ofNat (n + r.ended args o)⟩
  | none => Diverge (r.tokens.foldl (step args) ⟨o.withIndex index, 0, UInt32.ofNat n⟩).given (r.render args o).given

theorem Outcome.prepend {r rest : Reading} {o o' : Output} {index index' n n' : Nat} {x : Option (Output × Nat)}
    (h : Outcome args rest o' index' n' x)
    (htokens : r.tokens.foldl (step args) ⟨o.withIndex index, 0, UInt32.ofNat n⟩ =
      rest.tokens.foldl (step args) ⟨o'.withIndex index', 0, UInt32.ofNat n'⟩)
    (hrender : r.render args o = rest.render args o') (hended : n' + rest.ended args o' = n + r.ended args o) :
    Outcome args r o index n x := by
  rcases x with _ | ⟨o'', index''⟩
  · rw [Outcome, htokens, hrender]
    exact h
  · obtain ⟨hrest, hfoldl⟩ := h
    refine ⟨hrender.trans hrest, ?_⟩
    rw [htokens, hfoldl, hended]

theorem ofNat_add_one (n : Nat) : UInt32.ofNat n + 1 = UInt32.ofNat (n + 1) := (UInt32.ofNat_add n 1).symm

theorem ofNat_add_one_sub_one (n : Nat) : UInt32.ofNat (n + 1) - 1 = UInt32.ofNat n := by
  rw [← ofNat_add_one, add_one_sub_one]

theorem ofNat_ne_zero {n : Nat} (h : ¬2 ^ 32 ∣ n) : UInt32.ofNat n ≠ 0 := by
  intro hzero
  have hnat := congrArg UInt32.toNat hzero
  rw [UInt32.toNat_ofNat'] at hnat
  exact h (Nat.dvd_of_mod_eq_zero hnat)

theorem foldl_part (s : Rendering) (branch : List Token) (t : Token) (ts : List Token) :
    (branch ++ t :: ts).foldl (step args) s = ts.foldl (step args) (step args (branch.foldl (step args) s) t) := by
  rw [List.foldl_append, List.foldl_cons]

theorem foldl_selected (args : List Formatter) {start : Directive} {o : Output} (h : start.holds o.conditions = true)
    (index : Nat) (level : UInt32) (first : Reading) (t : Token) (ts : List Token) :
    (Token.startCondition start :: (first.tokens ++ t :: ts)).foldl (step args) ⟨o.withIndex index, 0, level⟩ =
      ts.foldl (step args) (step args (first.tokens.foldl (step args)
        ⟨(o.setIndex start).withIndex (start.moveIndex index), 0, level + 1⟩) t) := by
  rw [List.foldl_cons, step_start, if_pos h, foldl_part]

theorem foldl_not_selected (args : List Formatter) {start : Directive} {o : Output} (h : ¬start.holds o.conditions = true)
    (index : Nat) (level : UInt32) {first : Reading} (hdepth : first.depth ≤ 31) (t : Token) (ts : List Token) :
    (Token.startCondition start :: (first.tokens ++ t :: ts)).foldl (step args) ⟨o.withIndex index, 0, level⟩ =
      ts.foldl (step args) (step args
        ⟨(o.setIndex start).withIndex (first.lastIndex (start.moveIndex index)), 1, level + 1⟩ t) := by
  rw [List.foldl_cons, step_start, if_neg h, foldl_part, foldl_skipped first hdepth room_one (by decide)]
  rfl

theorem Outcome.diverge {r branch rest : Reading} {o o₁ o₂ : Output} {index index₁ n n₁ : Nat}
    (h : Outcome args branch o₁ index₁ n₁ none) {t : Token} {ts : List Token}
    (htokens : r.tokens.foldl (step args) ⟨o.withIndex index, 0, UInt32.ofNat n⟩ =
      ts.foldl (step args)
        (step args (branch.tokens.foldl (step args) ⟨o₁.withIndex index₁, 0, UInt32.ofNat n₁⟩) t))
    (hrender : r.render args o = rest.render args o₂) (hgiven : (branch.render args o₁).given = o₂.given) :
    Outcome args r o index n none := by
  rw [Outcome, htokens, hrender]
  refine Diverge.mono h ((given_prefix_step args _ t).trans (given_prefix_foldl args _ ts)) ?_
  rw [hgiven]
  exact given_prefix_render args rest o₂

/-- The outcome, wherever the reading is a part of a format string. -/
def Outcomes (args : List Formatter) (r : Reading) : Prop :=
  ∀ (o : Output) (index n : Nat), r.depth ≤ 32 → r.Noticed args o n → Outcome args r o index n (r.follow args o index)

theorem outcomes_placeholder (d : Directive) {rest : Reading} (hrest : Outcomes args rest) :
    Outcomes args (.placeholder d rest) := by
  intro o index n hdepth hnoticed
  have hstep : step args ⟨o.withIndex index, 0, UInt32.ofNat n⟩ (.placeholder d) =
      ⟨((o.setIndex d).withIndex (d.moveIndex index)).placeholder args d, 0, UInt32.ofNat n⟩ := rfl
  rw [Reading.follow]
  split_ifs with hpercent hargument
  · refine (hrest _ _ n hdepth hnoticed).prepend ?_ rfl rfl
    rw [Reading.tokens, List.foldl_cons, hstep, Output.placeholder_percent hpercent]
  · refine (hrest _ _ n hdepth hnoticed).prepend ?_ rfl rfl
    rw [Reading.tokens, List.foldl_cons, hstep, Output.placeholder_withIndex hpercent hargument]
  · refine ⟨o.given, argument args (d.moveIndex index), argument args (o.setIndex d).argIndex, hargument, ?_, ?_⟩
    · have hgiven := Output.placeholder_given args hpercent ((o.setIndex d).withIndex (d.moveIndex index))
      have hlater := given_prefix_foldl args
        ⟨((o.setIndex d).withIndex (d.moveIndex index)).placeholder args d, 0, UInt32.ofNat n⟩ rest.tokens
      rw [hgiven] at hlater
      exact hlater
    · have hgiven := Output.placeholder_given args hpercent (o.setIndex d)
      have hlater := given_prefix_render args rest ((o.setIndex d).placeholder args d)
      rw [hgiven] at hlater
      exact hlater

theorem outcomes_conditional (start stop : Directive) {first rest : Reading} (hfirst : Outcomes args first)
    (hrest : Outcomes args rest) : Outcomes args (.conditional start first stop rest) := by
  intro o index n hdepth hnoticed
  rw [Reading.depth] at hdepth
  rw [Reading.Noticed] at hnoticed
  rw [Reading.follow]
  by_cases hholds : start.holds o.conditions = true
  · have hselected : start.holds (o.setIndex start).conditions = true := hholds
    simp only [if_pos hselected] at hnoticed ⊢
    have hbranch := hfirst (o.setIndex start) (start.moveIndex index) (n + 1) (by omega) hnoticed.1
    have hrender : (Reading.conditional start first stop rest).render args o =
        rest.render args ((first.render args (o.setIndex start)).setIndex stop) := by
      rw [Reading.render, if_pos hselected]
    have htokens := foldl_selected args hholds index (UInt32.ofNat n) first (.endCondition stop) rest.tokens
    rw [ofNat_add_one] at htokens
    rcases hfollow : first.follow args (o.setIndex start) (start.moveIndex index) with _ | ⟨o₂, index₂⟩
    · rw [hfollow] at hbranch
      exact hbranch.diverge htokens hrender rfl
    · rw [hfollow] at hbranch
      obtain ⟨rfl, hfoldl⟩ := hbranch
      rw [hfoldl] at htokens
      refine (hrest _ _ _ (by omega) hnoticed.2).prepend htokens hrender ?_
      rw [Reading.ended, if_pos hselected]
      omega
  · have hskipped : ¬start.holds (o.setIndex start).conditions = true := hholds
    simp only [if_neg hskipped] at hnoticed ⊢
    have hrender : (Reading.conditional start first stop rest).render args o =
        rest.render args ((o.setIndex start).setIndex stop) := by
      rw [Reading.render, if_neg hskipped]
    have htokens := foldl_not_selected args hholds index (UInt32.ofNat n) (show first.depth ≤ 31 by omega)
      (.endCondition stop) rest.tokens
    rw [step_end_skipped, add_one_sub_one] at htokens
    refine (hrest _ _ n (by omega) hnoticed).prepend htokens hrender ?_
    rw [Reading.ended, if_neg hskipped]

theorem outcomes_alternatives (start switch stop : Directive) {first second rest : Reading} (hfirst : Outcomes args first)
    (hsecond : Outcomes args second) (hrest : Outcomes args rest) :
    Outcomes args (.alternatives start first switch second stop rest) := by
  intro o index n hdepth hnoticed
  rw [Reading.depth] at hdepth
  rw [Reading.Noticed] at hnoticed
  rw [Reading.follow]
  by_cases hholds : start.holds o.conditions = true
  · have hselected : start.holds (o.setIndex start).conditions = true := hholds
    simp only [if_pos hselected] at hnoticed ⊢
    obtain ⟨hnoticed₁, hswitch, hnoticed₂⟩ := hnoticed
    have hbranch := hfirst (o.setIndex start) (start.moveIndex index) (n + 1) (by omega) hnoticed₁
    have hrender : (Reading.alternatives start first switch second stop rest).render args o =
        rest.render args (((first.render args (o.setIndex start)).setIndex switch).setIndex stop) := by
      rw [Reading.render, if_pos hselected]
    have htokens := foldl_selected args hholds index (UInt32.ofNat n) first (.switchCondition switch)
      (second.tokens ++ .endCondition stop :: rest.tokens)
    rw [ofNat_add_one] at htokens
    rcases hfollow : first.follow args (o.setIndex start) (start.moveIndex index) with _ | ⟨o₂, index₂⟩
    · rw [hfollow] at hbranch
      exact hbranch.diverge htokens hrender rfl
    · rw [hfollow] at hbranch
      obtain ⟨rfl, hfoldl⟩ := hbranch
      have hflip : (0 : UInt32) ^^^ 1 = 1 := rfl
      rw [hfoldl, step_switch_selected (ofNat_ne_zero hswitch), hflip, foldl_part,
        foldl_skipped second (show second.depth ≤ 31 by omega) room_one (by decide), step_end_skipped,
        Nat.add_right_comm, ofNat_add_one_sub_one] at htokens
      refine (hrest _ _ _ (by omega) hnoticed₂).prepend htokens hrender ?_
      rw [Reading.ended, if_pos hselected, Nat.add_assoc]
  · have hskipped : ¬start.holds (o.setIndex start).conditions = true := hholds
    simp only [if_neg hskipped] at hnoticed ⊢
    obtain ⟨hswitch, hnoticed₁, hnoticed₂⟩ := hnoticed
    have hbranch := hsecond ((o.setIndex start).setIndex switch)
      (switch.moveIndex (first.lastIndex (start.moveIndex index))) (n + 1) (by omega) hnoticed₁
    have hrender : (Reading.alternatives start first switch second stop rest).render args o =
        rest.render args ((second.render args ((o.setIndex start).setIndex switch)).setIndex stop) := by
      rw [Reading.render, if_neg hskipped]
    have hflip : (1 : UInt32) ^^^ 1 = 0 := rfl
    have htokens := foldl_not_selected args hholds index (UInt32.ofNat n) (show first.depth ≤ 31 by omega)
      (.switchCondition switch) (second.tokens ++ .endCondition stop :: rest.tokens)
    rw [ofNat_add_one, step_switch_selected (ofNat_ne_zero hswitch), hflip, foldl_part,
      Output.setIndex_withIndex] at htokens
    rcases hfollow : second.follow args ((o.setIndex start).setIndex switch)
      (switch.moveIndex (first.lastIndex (start.moveIndex index))) with _ | ⟨o₂, index₂⟩
    · rw [hfollow] at hbranch
      exact hbranch.diverge htokens hrender rfl
    · rw [hfollow] at hbranch
      obtain ⟨rfl, hfoldl⟩ := hbranch
      rw [hfoldl] at htokens
      refine (hrest _ _ _ (by omega) hnoticed₂).prepend htokens hrender ?_
      rw [Reading.ended, if_neg hskipped]
      omega

theorem outcomes (args : List Formatter) (r : Reading) : Outcomes args r := by
  induction r with
  | nil => exact fun o index n _ _ => ⟨rfl, rfl⟩
  | text t rest ih => exact fun o index n hdepth hnoticed => (ih _ _ n hdepth hnoticed).prepend rfl rfl rfl
  | placeholder d rest ih => exact outcomes_placeholder d ih
  | conditional start first stop rest ihfirst ihrest => exact outcomes_conditional start stop ihfirst ihrest
  | alternatives start first switch second stop rest ihfirst ihsecond ihrest =>
    exact outcomes_alternatives start switch stop ihfirst ihsecond ihrest

/-! ### Format strings -/

theorem directive_eq_step (s : Rendering) (d : Directive) : s.directive args d = step args s d.token := by
  rw [directive, Directive.token]
  split_ifs <;> rfl

theorem tokens_eq (p : Bytes) :
    tokens p =
      match p.findIdx? (· = 37) with
      | none => [.text p]
      | some n =>
        .text (p.take n) ::
          match readDirective none true (p.drop (n + 1)) with
          | none => []
          | some (d, rest) => d.token :: tokens rest := by
  rw [tokens]
  split
  · next hnone => rw [hnone]
  · next n hsome =>
    rw [hsome]
    dsimp only
    split
    · next hd => rw [hd]
    · next d rest hd => rw [hd]

theorem loop_eq (args : List Formatter) (s : Rendering) (p : Bytes) :
    (s.loop args p).given = ((tokens p).foldl (step args) s).given ∧
      (((tokens p).foldl (step args) s).conditionState = 0 → s.loop args p = (tokens p).foldl (step args) s) := by
  induction hn : p.length using Nat.strong_induction_on generalizing s p with
  | _ n ih =>
    have htext : ∀ t, (s.text t).given = s.given := by
      intro t
      rw [text]
      split_ifs <;> rfl
    rw [tokens_eq, loop_unfold]
    rcases hfind : p.findIdx? (· = 37) with _ | m
    · rw [hfind]
      refine ⟨(htext p).symm, fun hzero => ?_⟩
      have hstate : (s.text p).conditionState = s.conditionState := by
        rw [text]
        split_ifs <;> rfl
      exact (if_pos (hstate.symm.trans hzero)).symm
    · rw [hfind]
      dsimp only
      rcases hd : readDirective none true (p.drop (m + 1)) with _ | ⟨d, rest⟩
      · exact ⟨rfl, fun _ => rfl⟩
      · have hlength := length_readDirective hd
        rw [List.length_drop] at hlength
        dsimp only
        rw [directive_eq_step]
        exact ih rest.length (by omega) _ rest rfl

/-- **When formatting conforms to the reading** of a format string. -/
theorem conforms_iff {fmt : Bytes} {r : Reading} (hreading : tokens (fmt.takeWhile (· ≠ 0)) = r.tokens)
    (hdepth : r.depth ≤ 32) (args : List Formatter) (hnoticed : r.Noticed args .start 0) :
    Conforms args fmt r ↔ r.Undisturbed args := by
  have houtcome := outcomes args r .start 0 0 hdepth hnoticed
  obtain ⟨hgiven, hresult⟩ := loop_eq args .start (fmt.takeWhile (· ≠ 0))
  rw [hreading] at hgiven hresult
  rw [Reading.Undisturbed]
  rcases hfollow : r.follow args .start 0 with _ | ⟨o, index⟩
  · rw [hfollow] at houtcome
    refine iff_of_false (fun h => houtcome.ne (hgiven.symm.trans h.given)) Bool.false_ne_true
  · rw [hfollow] at houtcome
    obtain ⟨hrender, hfoldl⟩ := houtcome
    have hstart : r.tokens.foldl (step args) .start = _ := hfoldl
    rw [hstart] at hresult
    refine iff_of_true ⟨?_, ?_⟩ rfl
    · rw [format, hresult rfl, hrender]
      rfl
    · rw [format, hresult rfl, hrender]
      rfl

/-- `%1{item%|items%}` after a number, as the comments have it. -/
def itemReading : Reading :=
  .text [] <| .placeholder ⟨none, true, ∅, 0, 0, 100⟩ <| .text (lit " ") <|
    .alternatives ⟨none, true, ∅, 1, 0, 123⟩ (.text (lit "item") .nil) ⟨none, true, ∅, 0, 0, 124⟩
      (.text (lit "items") .nil) ⟨none, true, ∅, 0, 0, 125⟩ <| .text [] .nil

theorem conforms_iff_item : Conforms [formatToString (lit "1")] (lit "%d %1{item%|items%}") itemReading :=
  (conforms_iff (by decide +kernel) (by decide) _ (itemReading.noticed_of_lt _ _ (by decide))).2 (by decide +kernel)

/-- An index in a branch that is not selected; the comments have this, too. -/
def resetReading : Reading :=
  .text [] <| .placeholder ⟨none, false, ∅, 0, 0, 100⟩ <| .text [] <|
    .alternatives ⟨none, true, ∅, 1, 0, 123⟩ (.text (lit "one item") .nil) ⟨none, true, ∅, 0, 0, 124⟩
      (.text [] <| .placeholder ⟨some 0, true, ∅, 0, 0, 100⟩ <| .text (lit " items") .nil) ⟨none, true, ∅, 0, 0, 125⟩ <|
    .text (lit " of ") <| .placeholder ⟨none, true, ∅, 0, 0, 100⟩ <| .text [] .nil

theorem not_conforms_reset :
    tokens (lit "%!d%1{one item%|%0$d items%} of %d") = resetReading.tokens ∧ resetReading.depth ≤ 32 ∧
      ¬Conforms [formatToString (lit "1"), formatToString (lit "5")] (lit "%!d%1{one item%|%0$d items%} of %d")
        resetReading := by
  refine ⟨by decide +kernel, by decide, fun h => ?_⟩
  exact absurd h.result (by decide +kernel)

end Afl.Format
