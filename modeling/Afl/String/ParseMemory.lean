import Afl.String.Parse

/-!
# Parsers for string memory

`afl/string/parsememory.cpp`. Each parser returns the number of characters it consumed and the rest of the
descriptor it was given.
-/

namespace Afl

def parseIf (pred : UInt8 → Bool) (mem : Bytes) : Nat × Bytes :=
  ((mem.takeWhile pred).length, mem.dropWhile pred)

def parseChar (ch : UInt8) : Bytes → Nat × Bytes
  | [] => (0, [])
  | c :: mem => if c = ch then (1, mem) else (0, c :: mem)

def parseLiteral (text mem : Bytes) : Nat × Bytes :=
  if text.isPrefixOf mem then (text.length, mem.drop text.length) else (0, mem)

/-- The loop of `parseNumber`: the number of digits, the value and the rest; `none` after an overflow. -/
def parseDigits : Nat → UInt64 → Bytes → Option (Nat × UInt64 × Bytes)
  | n, result, [] => some (n, result, [])
  | n, result, ch :: mem =>
    if charIsDigit ch then
      let newVal := 10 * result + (ch - 48).toUInt64
      if newVal < result then none else parseDigits (n + 1) newVal mem
    else some (n, result, ch :: mem)

/-- `parseNumber`: the value is set if the number of digits is not zero. -/
def parseNumber (mem : Bytes) : Nat × UInt64 × Bytes :=
  match parseDigits 0 0 mem with
  | none => (0, 0, mem)
  | some r => r

example : parseNumber (lit "17-") = (2, 17, lit "-") := by decide

/-- `parseNumber` with the variable it sets: the number of digits, what `out` is afterwards, and the rest. -/
def parseNumberInto (mem : Bytes) (out : UInt64) : Nat × UInt64 × Bytes :=
  let r := parseNumber mem
  (r.1, if 0 < r.1 then r.2.1 else out, r.2.2)

theorem head?_dropWhile_false (p : UInt8 → Bool) (c : Bytes) : ∀ x ∈ (c.dropWhile p).head?, p x = false := by
  intro x hx
  have hhead := List.head?_dropWhile_not p c
  rw [Option.mem_def.mp hx] at hhead
  exact hhead

theorem takeWhile_append_stop {p : UInt8 → Bool} {t rest : Bytes} (ht : ∀ c ∈ t, p c = true)
    (hrest : ∀ c ∈ rest.head?, p c = false) : (t ++ rest).takeWhile p = t ∧ (t ++ rest).dropWhile p = rest := by
  rw [List.takeWhile_append_of_pos ht, List.dropWhile_append_of_pos ht]
  cases rest with
  | nil => exact ⟨List.append_nil t, rfl⟩
  | cons c rest =>
    have hc : ¬p c = true := Bool.eq_false_iff.mp (hrest c rfl)
    rw [List.takeWhile_cons_of_neg hc, List.dropWhile_cons_of_neg hc]
    exact ⟨List.append_nil t, rfl⟩

theorem append_stop_inj {p : UInt8 → Bool} {s t x y : Bytes} (hs : ∀ c ∈ s, p c = true) (ht : ∀ c ∈ t, p c = true)
    (hx : ∀ c ∈ x.head?, p c = false) (hy : ∀ c ∈ y.head?, p c = false) (h : s ++ x = t ++ y) : s = t ∧ x = y := by
  obtain ⟨htake, hdrop⟩ := takeWhile_append_stop hs hx
  obtain ⟨htake', hdrop'⟩ := takeWhile_append_stop ht hy
  rw [h] at htake hdrop
  exact ⟨htake.symm.trans htake', hdrop.symm.trans hdrop'⟩

/-! ### Texts -/

theorem parseIf_append {pred : UInt8 → Bool} {text rest : Bytes} (htext : ∀ c ∈ text, pred c = true)
    (hrest : ∀ c ∈ rest.head?, pred c = false) : parseIf pred (text ++ rest) = (text.length, rest) := by
  obtain ⟨htake, hdrop⟩ := takeWhile_append_stop htext hrest
  rw [parseIf, htake, hdrop]

theorem parseIf_split (pred : UInt8 → Bool) (mem : Bytes) :
    ∃ text, (∀ c ∈ text, pred c = true) ∧ text.length = (parseIf pred mem).1 ∧ mem = text ++ (parseIf pred mem).2 :=
  ⟨mem.takeWhile pred, fun _ hc => List.mem_takeWhile_imp hc, rfl, List.takeWhile_append_dropWhile.symm⟩

theorem parseLiteral_append (text rest : Bytes) : parseLiteral text (text ++ rest) = (text.length, rest) := by
  rw [parseLiteral, if_pos (List.isPrefixOf_iff_prefix.mpr (List.prefix_append text rest)), List.drop_left]

theorem parseLiteral_split {text mem : Bytes} (h : 0 < (parseLiteral text mem).1) :
    mem = text ++ (parseLiteral text mem).2 := by
  rw [parseLiteral] at h ⊢
  split_ifs at h ⊢ with hprefix
  · obtain ⟨rest, rfl⟩ := List.isPrefixOf_iff_prefix.mp hprefix
    rw [List.drop_left]
  · exact absurd h (Nat.lt_irrefl 0)

theorem parseChar_cons (ch : UInt8) (rest : Bytes) : parseChar ch (ch :: rest) = (1, rest) := by
  rw [parseChar, if_pos rfl]

variable {mem : Bytes}

theorem parseChar_split {ch : UInt8} (h : 0 < (parseChar ch mem).1) :
    mem = ch :: (parseChar ch mem).2 := by
  cases mem with
  | nil => exact absurd h (Nat.lt_irrefl 0)
  | cons c mem =>
    rw [parseChar] at h ⊢
    split_ifs at h ⊢ with hc
    · rw [hc]
    · exact absurd h (Nat.lt_irrefl 0)

/-! ### Digits -/

theorem digitsValue_foldl_le (r : Nat) (ds : Bytes) : r ≤ ds.foldl (fun n c => 10 * n + (c.toNat - 48)) r := by
  induction ds generalizing r with
  | nil => exact Nat.le_refl r
  | cons c ds ih =>
    have hnext := ih (10 * r + (c.toNat - 48))
    rw [List.foldl_cons]
    omega

theorem toNat_sub_digit {c : UInt8} (hc : charIsDigit c = true) : (c - 48).toUInt64.toNat = c.toNat - 48 := by
  have hle : (48 : UInt8) ≤ c := UInt8.le_iff_toNat_le.mpr ((charIsDigit_iff c).mp hc).1
  rw [UInt8.toNat_toUInt64, UInt8.toNat_sub_of_le _ _ hle]
  rfl

/-- Read on from `a`, the value modulo `2 ^ 64` gets smaller at one of the digits. -/
def Shrinks (a : Nat) : Bytes → Prop
  | [] => False
  | c :: ds => (10 * a + (c.toNat - 48)) % 2 ^ 64 < a % 2 ^ 64 ∨ Shrinks (10 * a + (c.toNat - 48)) ds

instance decidableShrinks (a : Nat) : (ds : Bytes) → Decidable (Shrinks a ds)
  | [] => inferInstanceAs (Decidable False)
  | c :: ds =>
    have := decidableShrinks (10 * a + (c.toNat - 48)) ds
    inferInstanceAs (Decidable (_ ∨ _))

theorem not_shrinks {a : Nat} {ds : Bytes} (h : ds.foldl (fun n c => 10 * n + (c.toNat - 48)) a < 2 ^ 64) :
    ¬Shrinks a ds := by
  induction ds generalizing a with
  | nil => exact fun hshrinks => hshrinks
  | cons c ds ih =>
    rw [List.foldl_cons] at h
    have hnext := digitsValue_foldl_le (10 * a + (c.toNat - 48)) ds
    rintro (hless | hlater)
    · omega
    · exact ih h hlater

theorem stopped_iff {n a : Nat} {r : UInt64} (hr : r.toNat = a % 2 ^ 64) (mem : Bytes) {n' : Nat} {v : UInt64}
    {rest : Bytes} :
    some (n, r, mem) = some (n', v, rest) ↔ ¬Shrinks a [] ∧ v.toNat = a % 2 ^ 64 ∧ n' = n + 0 ∧ rest = mem := by
  rw [Option.some.injEq, Prod.mk.injEq, Prod.mk.injEq, ← hr, UInt64.toNat_inj]
  exact ⟨fun h => ⟨not_false, h.2.1.symm, h.1.symm, h.2.2.symm⟩, fun h => ⟨h.2.2.1.symm, h.2.1.symm, h.2.2.2.symm⟩⟩

/-- **Which numbers are read.** The check finds the digits at which the value gets smaller. -/
theorem parseDigits_eq_some_iff {n : Nat} (a : Nat) {r : UInt64} (hr : r.toNat = a % 2 ^ 64) {n' : Nat}
    {v : UInt64} {rest : Bytes} :
    parseDigits n r mem = some (n', v, rest) ↔
      ¬Shrinks a (mem.takeWhile charIsDigit) ∧
        v.toNat = (mem.takeWhile charIsDigit).foldl (fun n c => 10 * n + (c.toNat - 48)) a % 2 ^ 64 ∧
        n' = n + (mem.takeWhile charIsDigit).length ∧ rest = mem.dropWhile charIsDigit := by
  induction mem generalizing n a r with
  | nil => exact stopped_iff hr []
  | cons ch mem ih =>
    by_cases hdigit : charIsDigit ch = true
    · have hvalue : (10 * r + (ch - 48).toUInt64).toNat = (10 * a + (ch.toNat - 48)) % 2 ^ 64 := by
        rw [UInt64.toNat_add, UInt64.toNat_mul, toNat_sub_digit hdigit]
        show (10 * r.toNat % 2 ^ 64 + (ch.toNat - 48)) % 2 ^ 64 = _
        omega
      rw [parseDigits, if_pos hdigit, List.takeWhile_cons_of_pos hdigit, List.dropWhile_cons_of_pos hdigit,
        List.foldl_cons, List.length_cons, Shrinks, not_or]
      dsimp only
      by_cases hless : 10 * r + (ch - 48).toUInt64 < r
      · rw [if_pos hless]
        rw [UInt64.lt_iff_toNat_lt, hvalue, hr] at hless
        exact iff_of_false (fun h => by cases h) fun h => h.1.1 hless
      · rw [if_neg hless, ih _ hvalue]
        rw [UInt64.lt_iff_toNat_lt, hvalue, hr] at hless
        rw [Nat.add_assoc, Nat.add_comm 1, and_iff_right hless]
    · rw [parseDigits, if_neg hdigit, List.takeWhile_cons_of_neg hdigit, List.dropWhile_cons_of_neg hdigit]
      exact stopped_iff hr _

theorem parseNumber_shrinks (h : Shrinks 0 (mem.takeWhile charIsDigit)) :
    parseNumber mem = (0, 0, mem) := by
  have hnone : parseDigits 0 0 mem = none := by
    rw [Option.eq_none_iff_forall_ne_some]
    exact fun t ht => ((parseDigits_eq_some_iff 0 rfl).mp ht).1 h
  rw [parseNumber, hnone]

theorem parseNumber_of_not_shrinks (h : ¬Shrinks 0 (mem.takeWhile charIsDigit)) :
    parseNumber mem = ((mem.takeWhile charIsDigit).length,
      UInt64.ofNat (digitsValue (mem.takeWhile charIsDigit)), mem.dropWhile charIsDigit) := by
  have hsome : parseDigits 0 0 mem = some ((mem.takeWhile charIsDigit).length,
      UInt64.ofNat (digitsValue (mem.takeWhile charIsDigit)), mem.dropWhile charIsDigit) :=
    (parseDigits_eq_some_iff 0 rfl).mpr ⟨h, UInt64.toNat_ofNat', (Nat.zero_add _).symm, rfl⟩
  rw [parseNumber, hsome]

/-! ### Small numbers -/

theorem le_of_not_shrinks {a : Nat} {ds : Bytes} (h : ¬Shrinks a ds) :
    a % 2 ^ 64 ≤ ds.foldl (fun n c => 10 * n + (c.toNat - 48)) a % 2 ^ 64 := by
  induction ds generalizing a with
  | nil => exact Nat.le_refl _
  | cons c ds ih =>
    rw [Shrinks, not_or, Nat.not_lt] at h
    exact h.1.trans (ih h.2)

theorem small_of_not_shrinks {a : Nat} {ds : Bytes} (ha : a < 2 ^ 64) (h : ¬Shrinks a ds)
    (hsmall : ds.foldl (fun n c => 10 * n + (c.toNat - 48)) a % 2 ^ 64 < 2 ^ 16) :
    ds.foldl (fun n c => 10 * n + (c.toNat - 48)) a < 2 ^ 16 := by
  induction ds generalizing a with
  | nil => rwa [List.foldl_nil, Nat.mod_eq_of_lt ha] at hsmall
  | cons c ds ih =>
    have hvalue : a < 2 ^ 16 := by
      have hle := le_of_not_shrinks h
      rw [Nat.mod_eq_of_lt ha] at hle
      exact hle.trans_lt hsmall
    have hnext : 10 * a + (c.toNat - 48) < 2 ^ 64 := by
      have hc := c.toNat_lt
      omega
    rw [Shrinks, not_or] at h
    exact ih hnext h.2 hsmall

theorem parseNumber_iff (mem : Bytes) {n : Nat} {v : UInt64} {rest : Bytes} (hn : n ≠ 0) (hv : v.toNat < 2 ^ 16) :
    parseNumber mem = (n, v, rest) ↔
      v.toNat = digitsValue (mem.takeWhile charIsDigit) ∧ n = (mem.takeWhile charIsDigit).length ∧
        rest = mem.dropWhile charIsDigit := by
  by_cases hshrinks : Shrinks 0 (mem.takeWhile charIsDigit)
  · rw [parseNumber_shrinks hshrinks]
    refine iff_of_false (fun h => hn (Prod.mk.inj h).1.symm) fun h => ?_
    exact not_shrinks (h.1.symm.trans_lt (hv.trans (by decide))) hshrinks
  have hvalue : UInt64.ofNat (digitsValue (mem.takeWhile charIsDigit)) = v ↔
      v.toNat = digitsValue (mem.takeWhile charIsDigit) := by
    rw [← UInt64.toNat_inj, UInt64.toNat_ofNat']
    constructor
    · intro h
      have hsmall := small_of_not_shrinks (by decide) hshrinks (h.trans_lt hv)
      exact h.symm.trans (Nat.mod_eq_of_lt (hsmall.trans (by decide)))
    · intro h
      rw [← h, Nat.mod_eq_of_lt (hv.trans (by decide))]
  rw [parseNumber_of_not_shrinks hshrinks, Prod.mk.injEq, Prod.mk.injEq, hvalue]
  exact ⟨fun h => ⟨h.2.1, h.1.symm, h.2.2.symm⟩, fun h => ⟨h.2.1.symm, h.1, h.2.2.symm⟩⟩

/-! ### Any number -/

def IsDigits (text : Bytes) : Prop := text ≠ [] ∧ ∀ c ∈ text, charIsDigit c = true

instance (text : Bytes) : Decidable (IsDigits text) :=
  decidable_of_iff (text ≠ [] ∧ text.all charIsDigit = true) (by rw [List.all_eq_true, IsDigits])

theorem parseNumber_append {digits rest : Bytes} (hdigits : IsDigits digits)
    (hrest : ∀ c ∈ rest.head?, charIsDigit c = false) (h : ¬Shrinks 0 digits) :
    parseNumber (digits ++ rest) = (digits.length, UInt64.ofNat (digitsValue digits), rest) := by
  obtain ⟨htake, hdrop⟩ := takeWhile_append_stop hdigits.2 hrest
  rw [parseNumber_of_not_shrinks (htake.symm ▸ h), htake, hdrop]

theorem parseNumber_split (h : 0 < (parseNumber mem).1) :
    ∃ digits, IsDigits digits ∧ ¬Shrinks 0 digits ∧ (parseNumber mem).2.1 = UInt64.ofNat (digitsValue digits) ∧
      mem = digits ++ (parseNumber mem).2.2 := by
  by_cases hshrinks : Shrinks 0 (mem.takeWhile charIsDigit)
  · rw [parseNumber_shrinks hshrinks] at h
    exact absurd h (Nat.lt_irrefl 0)
  · rw [parseNumber_of_not_shrinks hshrinks] at h ⊢
    exact ⟨mem.takeWhile charIsDigit, ⟨List.ne_nil_of_length_pos h, fun _ hc => List.mem_takeWhile_imp hc⟩, hshrinks,
      rfl, List.takeWhile_append_dropWhile.symm⟩

theorem parseNumberInto_of_not_shrinks (h : ¬Shrinks 0 (mem.takeWhile charIsDigit)) (out : UInt64) :
    parseNumberInto mem out = ((mem.takeWhile charIsDigit).length,
      if 0 < (mem.takeWhile charIsDigit).length then UInt64.ofNat (digitsValue (mem.takeWhile charIsDigit)) else out,
      mem.dropWhile charIsDigit) := by
  rw [parseNumberInto, parseNumber_of_not_shrinks h]

/-- If there are digits and their value fits, that is the result, and otherwise nothing changes. -/
def NumberExact (mem : Bytes) : Prop :=
  ∀ out, parseNumberInto mem out =
    if mem.takeWhile charIsDigit ≠ [] ∧ digitsValue (mem.takeWhile charIsDigit) < 2 ^ 64 then
      ((mem.takeWhile charIsDigit).length, UInt64.ofNat (digitsValue (mem.takeWhile charIsDigit)),
        mem.dropWhile charIsDigit)
    else (0, out, mem)

/-- **When numbers are exact**: iff the value of the digits fits, or it gets smaller modulo `2 ^ 64` on the way. -/
theorem numberExact_iff (mem : Bytes) :
    NumberExact mem ↔
      digitsValue (mem.takeWhile charIsDigit) < 2 ^ 64 ∨ Shrinks 0 (mem.takeWhile charIsDigit) := by
  by_cases hshrinks : Shrinks 0 (mem.takeWhile charIsDigit)
  · refine iff_of_true (fun out => ?_) (.inr hshrinks)
    have hlarge : ¬digitsValue (mem.takeWhile charIsDigit) < 2 ^ 64 := fun h => not_shrinks h hshrinks
    rw [if_neg fun h => hlarge h.2, parseNumberInto, parseNumber_shrinks hshrinks]
    rfl
  rw [or_iff_left hshrinks]
  have hread := parseNumberInto_of_not_shrinks hshrinks
  constructor
  · intro hexact
    by_contra hlarge
    have hout := congrArg Prod.fst (hexact 0)
    rw [if_neg fun h => hlarge h.2, hread] at hout
    rw [List.length_eq_zero_iff.mp hout] at hlarge
    exact hlarge (by decide)
  · intro hsmall out
    rw [hread]
    by_cases hdigits : mem.takeWhile charIsDigit = []
    · have hrest : mem.takeWhile charIsDigit ++ mem.dropWhile charIsDigit = mem := List.takeWhile_append_dropWhile
      rw [hdigits, List.nil_append] at hrest
      rw [hdigits, hrest]
      exact (if_neg fun h => h.1 rfl).symm
    · rw [if_pos (List.length_pos_of_ne_nil hdigits), if_pos]
      exact ⟨hdigits, hsmall⟩

end Afl
