import Afl.Net.Redis.Commands

/-!
# Parts of lists

`LREM` removes occurrences of a value, `LRANGE` returns a range of a list and `LTRIM` restricts the list to one. The
last two turn an index into a position by `convertIndex`, where an index before the first element wraps around.
-/

namespace Afl.Net.Redis

open Exec

/-! ### Occurrences -/

section

variable {v x : Bytes} {l : List Bytes}

theorem iterate_erase_of_ne (h : x ≠ v) (n : Nat) (l : List Bytes) :
    (List.erase · v)^[n] (x :: l) = x :: (List.erase · v)^[n] l := by
  induction n generalizing l with
  | zero => rfl
  | succ n ih =>
    rw [Function.iterate_succ_apply, Function.iterate_succ_apply, List.erase_cons_tail (by simpa using h), ih]

theorem iterate_erase_self (n : Nat) (v : Bytes) (l : List Bytes) :
    (List.erase · v)^[n + 1] (v :: l) = (List.erase · v)^[n] l := by
  rw [Function.iterate_succ_apply, List.erase_cons_head]

theorem iterate_erase_nil (n : Nat) (v : Bytes) : (List.erase · v)^[n] [] = [] := by
  induction n with
  | zero => rfl
  | succ n ih => rw [Function.iterate_succ_apply, List.erase_nil, ih]

theorem lremLoop_first {step intArg : Int} {n : Nat} (hstep : step = 1 ∨ step = -1) (hn : intArg + step * n = 0)
    (hpos : 0 < n) (l : List Bytes) :
    lremLoop v step intArg l = ((List.erase · v)^[n] l, min n (l.count v)) := by
  induction l generalizing intArg n with
  | nil => rw [lremLoop, iterate_erase_nil, List.count_nil, Nat.min_zero]
  | cons x l ih =>
    rw [lremLoop]
    split_ifs with hx hlast
    · have hone : n = 1 := by rcases hstep with rfl | rfl <;> omega
      rw [hx, hone, iterate_erase_self, List.count_cons_self, Nat.min_eq_left (Nat.le_add_left 1 _)]
      rfl
    · obtain ⟨n, rfl⟩ : ∃ m, n = m + 1 := Nat.exists_eq_succ_of_ne_zero hpos.ne'
      have hn' : intArg + step + step * n = 0 := by rcases hstep with rfl | rfl <;> omega
      have hpos' : 0 < n := by rcases hstep with rfl | rfl <;> omega
      rw [ih hn' hpos', hx, iterate_erase_self, List.count_cons_self, Nat.add_min_add_right]
    · rw [ih hn hpos, iterate_erase_of_ne hx, List.count_cons_of_ne hx]

theorem lremLoop_all {step intArg : Int} (hstep : step = 1 ∨ step = -1) (haway : 0 ≤ intArg * step) (l : List Bytes) :
    lremLoop v step intArg l = (l.filter (· ≠ v), l.count v) := by
  induction l generalizing intArg with
  | nil => rfl
  | cons x l ih =>
    rw [lremLoop]
    have hlast : ¬intArg + step = 0 := by rcases hstep with rfl | rfl <;> omega
    have haway' : 0 ≤ (intArg + step) * step := by rcases hstep with rfl | rfl <;> omega
    split_ifs with hx
    · rw [ih haway', hx, List.count_cons_self, List.filter_cons_of_neg (by simp)]
    · rw [ih haway, List.count_cons_of_ne hx, List.filter_cons_of_pos (by simpa using hx)]

theorem filter_iterate_erase (n : Nat) (v : Bytes) (l : List Bytes) :
    ((List.erase · v)^[n] l).filter (· ≠ v) = l.filter (· ≠ v) := by
  induction n generalizing l with
  | zero => rfl
  | succ n ih =>
    rw [Function.iterate_succ_apply, ih, List.erase_eq_eraseP]
    induction l with
    | nil => rfl
    | cons x l ihl =>
      by_cases hx : x = v
      · rw [hx, List.eraseP_cons_of_pos (by simp), List.filter_cons_of_neg (by simp)]
      · rw [List.eraseP_cons_of_neg (by simpa using Ne.symm hx), List.filter_cons_of_pos (by simpa using hx),
          List.filter_cons_of_pos (by simpa using hx), ihl]

theorem lrem_pos {c : Int32} (h : 0 < c.toInt) :
    lrem v c l = ((List.erase · v)^[c.toInt.toNat] l, min c.toInt.toNat (l.count v)) := by
  have hneg : ¬c < 0 := fun hlt => by
    have hlt : c.toInt < 0 := Int32.lt_iff_toInt_lt.mp hlt
    omega
  rw [lrem, if_neg hneg]
  exact lremLoop_first (.inr rfl) (by omega) (by omega) l

theorem lrem_zero : lrem v 0 l = (l.filter (· ≠ v), l.count v) := by
  rw [lrem, if_neg (by decide)]
  exact lremLoop_all (.inr rfl) (by decide) l

theorem lrem_neg {c : Int32} (h : c.toInt < 0) :
    lrem v c l = (((List.erase · v)^[c.toInt.natAbs] l.reverse).reverse, min c.toInt.natAbs (l.count v)) := by
  rw [lrem, if_pos (Int32.lt_iff_toInt_lt.mpr h), lremLoop_first (.inl rfl) (n := c.toInt.natAbs) (by omega) (by omega),
    List.count_reverse]

theorem filter_lrem (c : Int32) (v : Bytes) (l : List Bytes) : (lrem v c l).1.filter (· ≠ v) = l.filter (· ≠ v) := by
  rcases lt_trichotomy c.toInt 0 with h | h | h
  · rw [lrem_neg h, List.filter_reverse, filter_iterate_erase, ← List.filter_reverse, List.reverse_reverse]
  · rw [Int32.toInt_inj.mp (show c.toInt = (0 : Int32).toInt from h), lrem_zero, List.filter_filter]
    simp only [Bool.and_self]
  · rw [lrem_pos h, filter_iterate_erase]

end

theorem exec_lrem {S : StdSort} {rand : Nat} {d : Data} {k s : Bytes} {l : List Bytes} {c : Int32}
    {key count value : Value} (hl : d.lookup k = some (.list l)) (hkey : key.eatString [] = .ok k)
    (hcount : count.eatInteger 0 = .ok c) (hvalue : value.eatString [] = .ok s) :
    exec (call S rand [.string Verb.lrem.text, key, count, value]) d =
      (.ok (.integer (int32OfSize (lrem s c l).2)), d.insert k (.list (lrem s c l).1)) := by
  apply exec_call_ok
  simp only [executeVerb, execLrem, exec_checkArgumentCount_bind (show [key, count, value].length = 3 from rfl),
    exec_eatString_bind hkey, exec_eatInteger_bind hcount, exec_eatString_bind hvalue, exec_get_bind .list hl]
  exact exec_bind_ok (exec_store _ _ _ _)

/-- **`LREM` removes the right occurrences**: the first ones, the last ones or all of them. The other elements stay in
their order, and removing from the end is removing from the begin of the reversed list. -/
theorem lrem_removes (S : StdSort) (rand : Nat) {d : Data} {k s : Bytes} {l : List Bytes} {c : Int32}
    {key count value : Value} (hl : d.lookup k = some (.list l)) (hkey : key.eatString [] = .ok k)
    (hcount : count.eatInteger 0 = .ok c) (hvalue : value.eatString [] = .ok s) :
    ∃ l' n, exec (call S rand [.string (lit "LREM"), key, count, value]) d =
        (.ok (.integer (int32OfSize n)), d.insert k (.list l')) ∧
      (0 < c.toInt → l' = (List.erase · s)^[c.toInt.toNat] l ∧ n = min c.toInt.toNat (l.count s)) ∧
      (c.toInt < 0 → l' = ((List.erase · s)^[c.toInt.natAbs] l.reverse).reverse ∧ n = min c.toInt.natAbs (l.count s)) ∧
      (c.toInt = 0 → l' = l.filter (· ≠ s) ∧ n = l.count s) ∧
      l'.filter (· ≠ s) = l.filter (· ≠ s) ∧
      ∀ {c' : Int32} {count' : Value}, c.toInt < 0 → c'.toInt = -c.toInt → count'.eatInteger 0 = .ok c' →
        exec (call S rand [.string (lit "LREM"), key, count', value]) (d.insert k (.list l.reverse)) =
          (.ok (.integer (int32OfSize n)), d.insert k (.list l'.reverse)) := by
  refine ⟨_, _, exec_lrem hl hkey hcount hvalue, fun h => ?_, fun h => ?_, fun h => ?_, filter_lrem c s l, ?_⟩
  · rw [lrem_pos h]
    exact ⟨rfl, rfl⟩
  · rw [lrem_neg h]
    exact ⟨rfl, rfl⟩
  · rw [Int32.toInt_inj.mp (show c.toInt = (0 : Int32).toInt from h), lrem_zero]
    exact ⟨rfl, rfl⟩
  · intro c' count' hneg hopposite hcount'
    have hreversed : (d.insert k (.list l.reverse)).lookup k = some (.list l.reverse) := Finmap.lookup_insert d
    have hcounts : c'.toInt.toNat = c.toInt.natAbs := by omega
    have hlrem : exec (call S rand [.string (lit "LREM"), key, count', value]) (d.insert k (.list l.reverse)) = _ :=
      exec_lrem hreversed hkey hcount' hvalue
    rw [lrem_pos (by omega), hcounts, List.count_reverse, Finmap.insert_insert] at hlrem
    rw [lrem_neg hneg, List.reverse_reverse]
    exact hlrem

theorem lrem_removes_last :
    ∃ l' n, exec (call .insertion 0 [.string (lit "LREM"), .string (lit "k"), .integer (-1), .string (lit "a")])
        ((∅ : Data).insert (lit "k") (.list [lit "a", lit "b", lit "a"])) =
          (.ok (.integer (int32OfSize n)), ((∅ : Data).insert (lit "k") (.list [lit "a", lit "b", lit "a"])).insert
            (lit "k") (.list l')) ∧ l' = [lit "a", lit "b"] ∧ n = 1 := by
  obtain ⟨l', n, hexec, -, hneg, -⟩ := lrem_removes .insertion 0 (l := [lit "a", lit "b", lit "a"]) (s := lit "a")
    (Finmap.lookup_insert (∅ : Data)) (show (Value.string (lit "k")).eatString [] = .ok (lit "k") from rfl)
    (show (Value.integer (-1)).eatInteger 0 = .ok (-1) from rfl)
    (show (Value.string (lit "a")).eatString [] = .ok (lit "a") from rfl)
  obtain ⟨hl', hn⟩ := hneg (by decide)
  exact ⟨l', n, hexec, hl'.trans (by decide), hn.trans (by decide)⟩

/-! ### Ranges -/

/-- The position that an index stands for: a negative one counts from the end. -/
def position (size : Nat) (n : Int32) : Int := if n.toInt < 0 then size + n.toInt else n.toInt

/-- The elements between two indices, as far as there are any. -/
def slice (l : List Bytes) (b e : Int32) : List Bytes :=
  (l.take (position l.length e + 1).toNat).drop (position l.length b).toNat

/-- The result of `convertIndex`. -/
def converted (size : Nat) (n : Int32) : Nat :=
  if n.toInt < 0 then sizeSub size (-n.toInt).toNat else n.toInt.toNat

theorem exec_convertIndex {n : Int32} (hn : n.toInt ≠ -2 ^ 31) (l : List Bytes) (d : Data) :
    exec (convertIndex l n) d = (.ok (converted l.length n), d) := by
  have hrange := n.toInt_lt
  have hrange' := n.le_toInt
  rw [convertIndex, converted]
  by_cases hneg : n.toInt < 0
  · have hcond : ¬(0 : Int32) ≤ n := by
      rw [Int32.le_iff_toInt_le, Int32.toInt_zero]
      omega
    have hchecked : exec (checked (-n.toInt)) d = (.ok (Int32.ofInt (-n.toInt)), d) := by
      rw [checked, if_pos (by omega)]
      rfl
    rw [if_neg hcond, if_pos hneg, exec_bind_ok hchecked, Int32.toInt_ofInt_of_le (by omega) (by omega)]
    rfl
  · have hcond : (0 : Int32) ≤ n := by
      rw [Int32.le_iff_toInt_le, Int32.toInt_zero]
      omega
    rw [if_pos hcond, if_neg hneg]
    rfl

theorem exec_convertIndex_min {n : Int32} (hn : n.toInt = -2 ^ 31) (l : List Bytes) (d : Data) :
    exec (convertIndex l n) d = (.error .undefined, d) := by
  have hcond : ¬(0 : Int32) ≤ n := by
    rw [Int32.le_iff_toInt_le, Int32.toInt_zero]
    omega
  have hchecked : exec (checked (-n.toInt)) d = (.error .undefined, d) := by
    rw [checked, if_neg (by omega)]
    rfl
  rw [convertIndex, if_neg hcond, exec_bind_error hchecked]

theorem converted_cases {size : Nat} (hsize : size < 2 ^ 64) (n : Int32) :
    (0 ≤ position size n ∧ (converted size n : Int) = position size n) ∨
      (position size n < 0 ∧ (converted size n : Int) = 2 ^ 64 + position size n) := by
  have hrange := n.le_toInt
  rw [position, converted, sizeSub]
  split_ifs
  · by_cases hinside : 0 ≤ size + n.toInt
    · refine .inl ⟨hinside, ?_⟩
      omega
    · refine .inr ⟨by omega, ?_⟩
      omega
  · exact .inl ⟨by omega, by omega⟩

theorem lrangeLoop_eq (xs : List Bytes) (i j : Nat) : lrangeLoop xs i j = xs.take (j + 1 - i) := by
  induction xs generalizing i with
  | nil => rw [lrangeLoop, List.take_nil]
  | cons x xs ih =>
    rw [lrangeLoop]
    split_ifs with hij
    · rw [show j + 1 - i = (j + 1 - (i + 1)) + 1 by omega, List.take_succ_cons, ih]
    · rw [show j + 1 - i = 0 by omega, List.take_zero]

theorem ltrimFront_eq (l : List Bytes) (i j : Nat) : ltrimFront l i j = (l.drop i, j - min i l.length) := by
  fun_induction ltrimFront l i j with
  | case1 j x xs i ih =>
    rw [ih, List.drop_succ_cons, List.length_cons, Prod.mk.injEq]
    exact ⟨rfl, by omega⟩
  | case2 xs i j h =>
    cases xs with
    | nil => rw [List.drop_nil, List.length_nil, Nat.min_zero, Nat.sub_zero]
    | cons x xs =>
      cases i with
      | zero => rw [List.drop_zero, Nat.zero_min, Nat.sub_zero]
      | succ i => exact absurd rfl (h x xs i rfl)

/-- What `LRANGE` returns. -/
def lrange (l : List Bytes) (b e : Int32) : List Bytes :=
  (l.drop (converted l.length b)).take (converted l.length e + 1 - converted l.length b)

/-- What `LTRIM` leaves. -/
def ltrim (l : List Bytes) (b e : Int32) : List Bytes :=
  (l.drop (converted l.length b)).take ((converted l.length e - min (converted l.length b) l.length + 1) % 2 ^ 64)

section

variable {S : StdSort} {rand : Nat} {d : Data} {k : Bytes} {l : List Bytes} {b e : Int32} {key beg last : Value}

theorem exec_lrange (hl : d.lookup k = some (.list l)) (hkey : key.eatString [] = .ok k)
    (hbeg : beg.eatInteger 0 = .ok b) (hlast : last.eatInteger 0 = .ok e) (hb : b.toInt ≠ -2 ^ 31)
    (he : e.toInt ≠ -2 ^ 31) :
    exec (call S rand [.string Verb.lrange.text, key, beg, last]) d = (.ok (.vector ((lrange l b e).map .string)), d) := by
  apply exec_call_ok
  simp only [executeVerb, execLrange, exec_checkArgumentCount_bind (show [key, beg, last].length = 3 from rfl),
    exec_eatString_bind hkey, exec_eatInteger_bind hbeg, exec_eatInteger_bind hlast, exec_get_bind .list hl,
    exec_bind_ok (exec_convertIndex hb l d), exec_bind_ok (exec_convertIndex he l d), lrangeLoop_eq]
  rfl

theorem exec_ltrim (hl : d.lookup k = some (.list l)) (hkey : key.eatString [] = .ok k)
    (hbeg : beg.eatInteger 0 = .ok b) (hlast : last.eatInteger 0 = .ok e) (hb : b.toInt ≠ -2 ^ 31)
    (he : e.toInt ≠ -2 ^ 31) :
    exec (call S rand [.string Verb.ltrim.text, key, beg, last]) d =
      (.ok (.string (lit "OK")), writeBack d k (.list (ltrim l b e))) := by
  apply exec_call_ok
  simp only [executeVerb, execLtrim, exec_checkArgumentCount_bind (show [key, beg, last].length = 3 from rfl),
    exec_eatString_bind hkey, exec_eatInteger_bind hbeg, exec_eatInteger_bind hlast, exec_get_bind .list hl,
    exec_bind_ok (exec_convertIndex hb l d), exec_bind_ok (exec_convertIndex he l d), ltrimFront_eq]
  exact exec_bind_ok (exec_storeListOrErase _ _ _)

theorem exec_lrange_min (hl : d.lookup k = some (.list l)) (hkey : key.eatString [] = .ok k)
    (hbeg : beg.eatInteger 0 = .ok b) (hlast : last.eatInteger 0 = .ok e) (hmin : b.toInt = -2 ^ 31 ∨ e.toInt = -2 ^ 31) :
    exec (call S rand [.string Verb.lrange.text, key, beg, last]) d = (.error .undefined, d) := by
  have hbranch : exec (executeVerb S rand .lrange [key, beg, last]) d = (.error .undefined, d) := by
    simp only [executeVerb, execLrange, exec_checkArgumentCount_bind (show [key, beg, last].length = 3 from rfl),
      exec_eatString_bind hkey, exec_eatInteger_bind hbeg, exec_eatInteger_bind hlast, exec_get_bind .list hl]
    by_cases hb : b.toInt = -2 ^ 31
    · exact exec_bind_error (exec_convertIndex_min hb l d)
    · rw [exec_bind_ok (exec_convertIndex hb l d)]
      exact exec_bind_error (exec_convertIndex_min (hmin.resolve_left hb) l d)
  rw [exec_call, hbranch]
  rfl

/-- The list is empty, the range begins after it, the range is before it, or the range is in order. -/
def InRange (size : Nat) (b e : Int32) : Prop :=
  b.toInt ≠ -2 ^ 31 ∧ e.toInt ≠ -2 ^ 31 ∧
    (size = 0 ∨ size ≤ position size b ∨ (position size b < 0 ∧ position size e < 0) ∨
      (0 ≤ position size b ∧ position size b ≤ position size e))

theorem length_slice (l : List Bytes) (b e : Int32) :
    (slice l b e).length = min (position l.length e + 1).toNat l.length - (position l.length b).toNat := by
  rw [slice, List.length_drop, List.length_take]

theorem length_lrange (l : List Bytes) (b e : Int32) :
    (lrange l b e).length =
      min (converted l.length e + 1 - converted l.length b) (l.length - converted l.length b) := by
  rw [lrange, List.length_take, List.length_drop]

theorem length_ltrim (l : List Bytes) (b e : Int32) :
    (ltrim l b e).length =
      min ((converted l.length e - min (converted l.length b) l.length + 1) % 2 ^ 64)
        (l.length - converted l.length b) := by
  rw [ltrim, List.length_take, List.length_drop]

theorem position_bounds (size : Nat) (n : Int32) :
    (position size n < 0 → size - 2 ^ 31 ≤ position size n) ∧ position size n < max (size : Int) (2 ^ 31) := by
  have hrange := n.toInt_lt
  have hrange' := n.le_toInt
  rw [position]
  split_ifs <;> omega

theorem ranges_of_le (hsize : l.length < 2 ^ 64) (hb : 0 ≤ position l.length b)
    (hle : position l.length b ≤ position l.length e) : lrange l b e = slice l b e ∧ ltrim l b e = slice l b e := by
  obtain ⟨-, hi⟩ | ⟨hneg, -⟩ := converted_cases hsize b
  · obtain ⟨-, hj⟩ | ⟨hneg, -⟩ := converted_cases hsize e
    · have hlimit := position_bounds l.length e
      have hfirst : (position l.length b).toNat = converted l.length b := by omega
      have hend : (position l.length e + 1).toNat = converted l.length e + 1 := by omega
      have hslice : slice l b e = lrange l b e := by
        rw [slice, lrange, hfirst, hend, List.drop_take]
      refine ⟨hslice.symm, hslice ▸ ?_⟩
      rw [ltrim, lrange]
      by_cases hinside : converted l.length b ≤ l.length
      · have hcount : (converted l.length e - min (converted l.length b) l.length + 1) % 2 ^ 64 =
            converted l.length e + 1 - converted l.length b := by
          rw [Nat.mod_eq_of_lt (by omega)]
          omega
        rw [hcount]
      · rw [List.drop_eq_nil_of_le (by omega), List.take_nil, List.take_nil]
    · omega
  · omega

theorem ranges_iff (hsize : l.length < 2 ^ 64) :
    (lrange l b e = slice l b e ∧ ltrim l b e = slice l b e) ↔
      (l.length = 0 ∨ l.length ≤ position l.length b ∨ (position l.length b < 0 ∧ position l.length e < 0) ∨
        (0 ≤ position l.length b ∧ position l.length b ≤ position l.length e)) := by
  have hlimit := position_bounds l.length b
  have hlimit' := position_bounds l.length e
  have hi := converted_cases hsize b
  have hj := converted_cases hsize e
  constructor
  · rintro ⟨hlrange, hltrim⟩
    have hlength := length_slice l b e
    have hlrange := (length_lrange l b e).symm.trans ((congrArg List.length hlrange).trans hlength)
    have hltrim := (length_ltrim l b e).symm.trans ((congrArg List.length hltrim).trans hlength)
    by_contra hout
    simp only [not_or, not_and, Int.not_lt, Int.not_le] at hout
    obtain ⟨hne, hbefore, hafter, horder⟩ := hout
    by_cases hb : position l.length b < 0
    · -- the range begins before the list, but nothing is found
      have he := hafter hb
      obtain ⟨-, hi⟩ := hi.resolve_left fun h => absurd h.1 (Int.not_le.2 hb)
      obtain ⟨-, hj⟩ := hj.resolve_right fun h => absurd h.1 (Int.not_lt.2 he)
      clear hltrim
      omega
    · have horder := horder (Int.not_lt.1 hb)
      obtain ⟨-, hi⟩ := hi.resolve_right fun h => hb h.1
      by_cases he : position l.length e < 0
      · -- `LRANGE` goes on to the end of the list
        obtain ⟨-, hj⟩ := hj.resolve_left fun h => absurd h.1 (Int.not_le.2 he)
        clear hltrim
        omega
      · -- `LTRIM` keeps one element
        obtain ⟨-, hj⟩ := hj.resolve_right fun h => he h.1
        clear hlrange
        have hcount : converted l.length e - min (converted l.length b) l.length = 0 := by omega
        rw [hcount] at hltrim
        omega
  · intro hrange
    by_cases horder : 0 ≤ position l.length b ∧ position l.length b ≤ position l.length e
    · exact ranges_of_le hsize horder.1 horder.2
    · have hnil : l.drop (converted l.length b) = [] := List.drop_eq_nil_of_le (by omega)
      have hslice : slice l b e = [] := by
        apply List.eq_nil_of_length_eq_zero
        rw [length_slice]
        omega
      rw [lrange, ltrim, hnil, List.take_nil, List.take_nil, hslice]
      exact ⟨rfl, rfl⟩

theorem lookup_writeBack_list (d : Data) (name : Bytes) (l : List Bytes) :
    (writeBack d name (.list l)).lookup name = if l = [] then none else some (.list l) := by
  rw [writeBack_list]
  split_ifs
  · rw [Finmap.lookup_erase]
  · rw [Finmap.lookup_insert]

theorem writeBack_list_inj {d : Data} {name : Bytes} {l l' : List Bytes} :
    writeBack d name (.list l) = writeBack d name (.list l') ↔ l = l' := by
  refine ⟨fun h => ?_, fun h => h ▸ rfl⟩
  have hlookup := congrArg (Finmap.lookup name) h
  rw [lookup_writeBack_list, lookup_writeBack_list] at hlookup
  split_ifs at hlookup with hl hl'
  · rw [hl, hl']
  · cases hlookup
    rfl

end

/-- **`LTRIM` agrees with `LRANGE`**, and both with the range that was asked for, exactly for indices in range. A range
that begins before the list and ends in it is found to be empty, one that ends before the list goes on to the end, and
of one that ends before it begins, `LTRIM` keeps an element. -/
theorem ltrim_agrees_iff (S : StdSort) (rand : Nat) {d : Data} {k : Bytes} {l : List Bytes} {b e : Int32}
    {key beg last : Value} (hl : d.lookup k = some (.list l)) (hsize : l.length < 2 ^ 64)
    (hkey : key.eatString [] = .ok k) (hbeg : beg.eatInteger 0 = .ok b) (hlast : last.eatInteger 0 = .ok e) :
    (exec (call S rand [.string (lit "LRANGE"), key, beg, last]) d =
        (.ok (.vector ((slice l b e).map .string)), d) ∧
      exec (call S rand [.string (lit "LTRIM"), key, beg, last]) d =
        (.ok (.string (lit "OK")), if slice l b e = [] then d.erase k else d.insert k (.list (slice l b e)))) ↔
      InRange l.length b e := by
  by_cases hmin : b.toInt = -2 ^ 31 ∨ e.toInt = -2 ^ 31
  · have hundefined : exec (call S rand [.string (lit "LRANGE"), key, beg, last]) d = (.error .undefined, d) :=
      exec_lrange_min hl hkey hbeg hlast hmin
    rw [hundefined]
    exact ⟨fun h => (by cases h.1), fun h => (hmin.elim h.1 h.2.1).elim⟩
  · obtain ⟨hb, he⟩ := not_or.mp hmin
    have hlrange : exec (call S rand [.string (lit "LRANGE"), key, beg, last]) d = _ :=
      exec_lrange hl hkey hbeg hlast hb he
    have hltrim : exec (call S rand [.string (lit "LTRIM"), key, beg, last]) d = _ :=
      exec_ltrim hl hkey hbeg hlast hb he
    have hinjective : Function.Injective Value.string := fun _ _ h => Value.string.inj h
    rw [hlrange, hltrim, ← writeBack_list, InRange, ← ranges_iff hsize]
    simp only [Prod.mk.injEq, Except.ok.injEq, Value.vector.injEq, and_true, true_and, writeBack_list_inj,
      List.map_inj_right (fun _ _ h => hinjective h)]
    exact ⟨fun h => ⟨hb, he, h⟩, fun h => h.2.2⟩

/-- A list of two elements under `k`. -/
def twoElements : Data := (∅ : Data).insert (lit "k") (.list [lit "a", lit "b"])

theorem ltrim_agrees_last :
    exec (call .insertion 0 [.string (lit "LRANGE"), .string (lit "k"), .integer (-1), .integer (-1)]) twoElements =
        (.ok (.vector [.string (lit "b")]), twoElements) ∧
      exec (call .insertion 0 [.string (lit "LTRIM"), .string (lit "k"), .integer (-1), .integer (-1)]) twoElements =
        (.ok (.string (lit "OK")), twoElements.insert (lit "k") (.list [lit "b"])) :=
  (ltrim_agrees_iff .insertion 0 (d := twoElements) (l := [lit "a", lit "b"]) (b := -1) (e := -1)
    (Finmap.lookup_insert _) (by decide) (show (Value.string (lit "k")).eatString [] = .ok (lit "k") from rfl)
    (show (Value.integer (-1)).eatInteger 0 = .ok (-1) from rfl)
    (show (Value.integer (-1)).eatInteger 0 = .ok (-1) from rfl)).mpr ⟨by decide, by decide, by decide⟩

/-- `LTRIM k 1 0` keeps an element where `LRANGE k 1 0` returns none, and `LRANGE k -3 -1` returns none of the two. -/
theorem ltrim_disagrees :
    (∃ d, exec (call .insertion 0 [.string (lit "LTRIM"), .string (lit "k"), .integer 1, .integer 0]) twoElements =
        (.ok (.string (lit "OK")), d) ∧ d.lookup (lit "k") = some (.list [lit "b"])) ∧
      exec (call .insertion 0 [.string (lit "LRANGE"), .string (lit "k"), .integer 1, .integer 0]) twoElements =
        (.ok (.vector []), twoElements) ∧
      exec (call .insertion 0 [.string (lit "LRANGE"), .string (lit "k"), .integer (-3), .integer (-1)]) twoElements =
        (.ok (.vector []), twoElements) ∧ slice [lit "a", lit "b"] (-3) (-1) = [lit "a", lit "b"] :=
  ⟨⟨_, rfl, by decide⟩, rfl, rfl, by decide⟩

/-! ### Parts of strings

`GETRANGE` returns the bytes of a string between two indices. A position before the string stands for its begin, both
for the first and for the last byte. -/

/-- The bytes between two indices, as far as there are any. -/
def substring (s : Bytes) (b e : Int32) : Bytes :=
  (s.take (max 0 (position s.length e) + 1).toNat).drop (max 0 (position s.length b)).toNat

section

variable {s : Bytes}

theorem toInt_int32OfSize {n : Nat} (h : n < 2 ^ 31) : (int32OfSize n).toInt = n :=
  Int32.toInt_ofInt_of_le (by omega) (by omega)

theorem exec_fromEnd (hsize : s.length < 2 ^ 31) (i : Int32) (d : Data) :
    ∃ n : Int32, n.toInt = position s.length i ∧ exec (fromEnd s i) d = (.ok n, d) := by
  have hrange := i.le_toInt
  rw [fromEnd, position]
  simp only [Int32.lt_iff_toInt_lt, Int32.toInt_zero]
  split_ifs with hneg
  · rw [toInt_int32OfSize hsize, checked, if_pos (by omega)]
    exact ⟨_, by rw [Int32.toInt_ofInt_of_le (by omega) (by omega), add_comm], rfl⟩
  · exact ⟨i, rfl, rfl⟩

theorem toInt_clamp (n : Int32) : (if n < 0 then 0 else n).toInt = max 0 n.toInt := by
  simp only [Int32.lt_iff_toInt_lt, Int32.toInt_zero]
  split_ifs with hneg
  · rw [Int32.toInt_zero, max_eq_left hneg.le]
  · rw [max_eq_right (not_lt.mp hneg)]

theorem position_eq_max_iff {size : Nat} (hsize : size < 2 ^ 31) (e : Int32) :
    max 0 (position size e) + 1 < 2 ^ 31 ↔ e.toInt ≠ 2 ^ 31 - 1 := by
  have hrange := e.toInt_lt
  rw [position]
  split_ifs <;> omega

theorem cut_eq_substring (hsize : s.length < 2 ^ 31) {b e beg last : Int32}
    (hbeg : beg.toInt = max 0 (position s.length b)) (hlast : last.toInt = max 0 (position s.length e) + 1) :
    (if last ≤ beg ∨ int32OfSize s.length ≤ beg then []
      else (s.drop beg.toInt.toNat).take (last.toInt - beg.toInt).toNat) = substring s b e := by
  rw [substring, ← hbeg, ← hlast]
  simp only [Int32.le_iff_toInt_le, toInt_int32OfSize hsize]
  have hpos : 0 ≤ beg.toInt := by rw [hbeg]; exact le_max_left _ _
  split_ifs with hempty
  · symm
    apply List.eq_nil_of_length_eq_zero
    rw [List.length_drop, List.length_take]
    omega
  · rw [List.drop_take, show last.toInt.toNat - beg.toInt.toNat = (last.toInt - beg.toInt).toNat by omega]

end

/-- **`GETRANGE` returns the substring** for all indices but one: behind the largest one there is no end, and
computing it is undefined behaviour. -/
theorem getrange_substring_iff (S : StdSort) (rand : Nat) {d : Data} {k s : Bytes} {b e : Int32} {key beg last : Value}
    (hs : d.lookup k = some (.string s)) (hsize : s.length < 2 ^ 31) (hkey : key.eatString [] = .ok k)
    (hbeg : beg.eatInteger 0 = .ok b) (hlast : last.eatInteger 0 = .ok e) :
    exec (call S rand [.string (lit "GETRANGE"), key, beg, last]) d = (.ok (.string (substring s b e)), d) ↔
      e.toInt ≠ 2 ^ 31 - 1 := by
  obtain ⟨first, hfirst, hexecFirst⟩ := exec_fromEnd hsize b d
  obtain ⟨final, hfinal, hexecFinal⟩ := exec_fromEnd hsize e d
  change exec (call S rand (.string (Verb.text .getrange) :: [key, beg, last])) d = _ ↔ _
  rw [exec_call_eq_ok_iff]
  simp only [executeVerb, execGetrange, exec_checkArgumentCount_bind (show [key, beg, last].length = 3 from rfl),
    exec_eatString_bind hkey, exec_eatInteger_bind hbeg, exec_eatInteger_bind hlast, exec_get_bind .string hs,
    exec_bind_ok hexecFirst, exec_bind_ok hexecFinal]
  rw [toInt_clamp final, hfinal, ← position_eq_max_iff hsize e]
  have hpos := le_max_left 0 (position s.length e)
  constructor
  · intro h
    by_contra hlarge
    have hchecked : exec (checked (max 0 (position s.length e) + 1)) d = (.error .undefined, d) := by
      rw [checked, if_neg (by omega)]
      rfl
    rw [exec_bind_error hchecked] at h
    cases h
  · intro hfits
    have hchecked : exec (checked (max 0 (position s.length e) + 1)) d =
        (.ok (Int32.ofInt (max 0 (position s.length e) + 1)), d) := by
      rw [checked, if_pos (by omega)]
      rfl
    have hclamp := toInt_clamp first
    rw [hfirst] at hclamp
    rw [exec_bind_ok hchecked, exec_pure, ← cut_eq_substring hsize hclamp
      (Int32.toInt_ofInt_of_le (by omega) (by omega))]

theorem getrange_substring_first_two :
    exec (call .insertion 0 [.string (lit "GETRANGE"), .string (lit "k"), .integer 0, .integer (-2)])
      ((∅ : Data).insert (lit "k") (.string (lit "abc"))) =
        (.ok (.string (lit "ab")), (∅ : Data).insert (lit "k") (.string (lit "abc"))) :=
  (getrange_substring_iff .insertion 0 (s := lit "abc") (Finmap.lookup_insert (∅ : Data)) (by decide)
    (show (Value.string (lit "k")).eatString [] = .ok (lit "k") from rfl)
    (show (Value.integer 0).eatInteger 0 = .ok 0 from rfl)
    (show (Value.integer (-2)).eatInteger 0 = .ok (-2) from rfl)).mpr (by decide)

/-- Everything up to the largest index. -/
theorem getrange_largest :
    exec (call .insertion 0 [.string (lit "GETRANGE"), .string (lit "k"), .integer 0, .integer 2147483647])
        ((∅ : Data).insert (lit "k") (.string (lit "abc"))) ≠
      (.ok (.string (substring (lit "abc") 0 2147483647)), (∅ : Data).insert (lit "k") (.string (lit "abc"))) := by
  have hundefined : (exec (call .insertion 0
      [.string (lit "GETRANGE"), .string (lit "k"), .integer 0, .integer 2147483647])
        ((∅ : Data).insert (lit "k") (.string (lit "abc")))).1 = .error .undefined := by
    rfl
  intro h
  rw [h] at hundefined
  cases hundefined

end Afl.Net.Redis
