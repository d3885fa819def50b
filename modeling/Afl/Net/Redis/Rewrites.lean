import Afl.Net.Redis.Members
import Afl.Net.Redis.Sorting

/-!
# `LREM`, `SMOVE` and `SORT`

The verdicts on the commands that rewrite a list or a set without the check for an empty result. `LREM` and
`SORT ... STORE` never make it; `SMOVE` takes the element out of the source before it looks at the
destination.
-/

namespace Afl.Net.Redis

open Exec

/-! ### Reading three arguments -/

theorem verdict_eatString_cons {x : Value} {v : Segment} {value : Bytes} {f : Bytes × Segment → Db Value} {d : Data}
    {torn leavesEmpty : Prop} (hok : ∀ s, x.eatString value = .ok s → Verdict (f (s, v)) d torn leavesEmpty)
    (herror : ∀ e, x.eatString value = .error e → ¬torn ∧ ¬leavesEmpty) :
    Verdict (eatString (x :: v) value >>= f) d torn leavesEmpty := by
  refine verdict_bind (readOnly_eatString _ _) (fun p hp => ?_) fun e he => ?_
  · rw [exec_eatString_cons] at hp
    cases hx : x.eatString value with
    | error e => simp [hx] at hp
    | ok s =>
      simp only [hx, Prod.mk.injEq, Except.ok.injEq, and_true] at hp
      exact hp ▸ hok s hx
  · rw [exec_eatString_cons] at he
    cases hx : x.eatString value with
    | error e => exact herror e hx
    | ok s => simp [hx] at he

theorem exec_eatInteger_cons (x : Value) (v : Segment) (value : Int32) (d : Data) :
    exec (eatInteger (x :: v) value) d =
      match x.eatInteger value with
      | .ok n => (.ok (n, v), d)
      | .error e => (.error (.thrown e), d) := by
  show exec (liftE (x.eatInteger value) >>= fun n => pure (n, v)) d = _
  cases x.eatInteger value with
  | error e => rw [exec_bind_error (exec_liftE_error _ _)]
  | ok n => rw [exec_bind_ok (exec_liftE_ok _ _), exec_pure]

theorem verdict_eatInteger_cons {x : Value} {v : Segment} {value : Int32} {f : Int32 × Segment → Db Value}
    {d : Data} {torn leavesEmpty : Prop}
    (hok : ∀ n, x.eatInteger value = .ok n → Verdict (f (n, v)) d torn leavesEmpty)
    (herror : ∀ e, x.eatInteger value = .error e → ¬torn ∧ ¬leavesEmpty) :
    Verdict (eatInteger (x :: v) value >>= f) d torn leavesEmpty := by
  refine verdict_bind (readOnly_eatInteger _ _) (fun p hp => ?_) fun e he => ?_
  · rw [exec_eatInteger_cons] at hp
    cases hx : x.eatInteger value with
    | error e => simp [hx] at hp
    | ok n =>
      simp only [hx, Prod.mk.injEq, Except.ok.injEq, and_true] at hp
      exact hp ▸ hok n hx
  · rw [exec_eatInteger_cons] at he
    cases hx : x.eatInteger value with
    | error e => exact herror e hx
    | ok n => simp [hx] at he

theorem verdict_three {v : Segment} {f : Db Value} {d : Data} {torn leavesEmpty : Prop}
    (hok : ∀ x y z, v = [x, y, z] → Verdict f d torn leavesEmpty)
    (herror : v.length ≠ 3 → ¬torn ∧ ¬leavesEmpty) :
    Verdict (checkArgumentCount v 3 >>= fun _ => f) d torn leavesEmpty := by
  refine verdict_bind (readOnly_checkArgumentCount _ _) (fun _ hcheck => ?_) fun e he => ?_
  · obtain ⟨x, y, z, hv⟩ := List.length_eq_three.mp (length_of_checkArgumentCount hcheck)
    exact hok x y z hv
  · exact herror (length_of_checkArgumentCount_error he)

/-! ### `LREM` -/

theorem lremLoop_eq_nil_iff {stringArg : Bytes} {step : Int} (hstep : step = 1 ∨ step = -1) (intArg : Int)
    (xs : List Bytes) : (lremLoop stringArg step intArg xs).1 = [] ↔
      (∀ t ∈ xs, t = stringArg) ∧ (0 ≤ intArg * step ∨ xs.length ≤ intArg.natAbs) := by
  induction xs generalizing intArg with
  | nil => simp [lremLoop]
  | cons x xs ih =>
    unfold lremLoop
    by_cases hx : x = stringArg
    · rw [if_pos hx, List.forall_mem_cons, List.length_cons]
      by_cases hlast : intArg + step = 0
      · rw [if_pos hlast]
        have hneg : ¬(0 ≤ intArg * step) := by rcases hstep with rfl | rfl <;> omega
        have habs : intArg.natAbs = 1 := by omega
        constructor
        · rintro rfl
          simp [hx, habs]
        · rintro ⟨-, hor⟩
          show xs = []
          exact List.length_eq_zero_iff.mp (by omega)
      · rw [if_neg hlast, ih]
        have hcount : 0 ≤ (intArg + step) * step ∨ xs.length ≤ (intArg + step).natAbs ↔
            0 ≤ intArg * step ∨ xs.length + 1 ≤ intArg.natAbs := by
          rcases hstep with rfl | rfl <;> omega
        rw [hcount]
        simp [hx]
    · rw [if_neg hx]
      simp [hx]

theorem lrem_eq_nil_iff (stringArg : Bytes) (intArg : Int32) (m_list : List Bytes) :
    (lrem stringArg intArg m_list).1 = [] ↔
      (∀ t ∈ m_list, t = stringArg) ∧ (intArg = 0 ∨ m_list.length ≤ intArg.toInt.natAbs) := by
  have hzero : intArg = 0 ↔ intArg.toInt = 0 := by
    rw [← Int32.toInt_inj]
    rfl
  unfold lrem
  by_cases hneg : intArg < 0
  · have hlt : intArg.toInt < 0 := Int32.lt_iff_toInt_lt.mp hneg
    rw [if_pos hneg, List.reverse_eq_nil_iff, lremLoop_eq_nil_iff (.inl rfl), List.length_reverse, hzero]
    simp only [List.mem_reverse]
    have hcount : 0 ≤ intArg.toInt * 1 ↔ intArg.toInt = 0 := by omega
    rw [hcount]
  · have hle : 0 ≤ intArg.toInt := by
      by_contra hlt
      exact hneg (Int32.lt_iff_toInt_lt.mpr (show intArg.toInt < 0 by omega))
    rw [if_neg hneg, lremLoop_eq_nil_iff (.inr rfl), hzero]
    have hcount : 0 ≤ intArg.toInt * -1 ↔ intArg.toInt = 0 := by omega
    rw [hcount]

theorem verdict_execLrem (S : StdSort) (v : Segment) (d : Data) :
    Verdict (execLrem v) d False (LeavesEmpty S d .lrem v) := by
  refine verdict_three (fun x y z hv => ?_) fun hlen => ?_
  · subst hv
    refine verdict_eatString_cons (fun key hkey => ?_) fun e he => ?_
    · refine verdict_eatInteger_cons (fun count hcount => ?_) fun e he => ?_
      · refine verdict_eatString_cons (fun s hs => ?_) fun e he => ?_
        · refine verdict_get (fun hnone => ?_) (fun m_list hlookup => ?_) fun k hk hcast => ?_
          · refine (verdict_of_safe (safe_of_readOnly (.pure _) d)).congr Iff.rfl fun _ => ?_
            simp [LeavesEmpty, hkey, hnone]
          · refine (verdict_insert key (e := none) (a := .integer (int32OfSize (lrem s count m_list).2))
              (k := .list (lrem s count m_list).1) ?_).congr (by simp) fun _ => ?_
            · exact exec_bind_ok (exec_store _ _ _ _)
            · rw [Key.Inhabited, not_not, lrem_eq_nil_iff]
              simp [LeavesEmpty, hkey, hcount, hs, hlookup]
          · refine ⟨id, ?_⟩
            simp only [LeavesEmpty, List.cons.injEq, and_true]
            rintro ⟨x', y', z', key', count', s', m_list, ⟨rfl, rfl, rfl⟩, hkey', -, -, hl, -⟩
            cases hkey.symm.trans hkey'
            cases hk.symm.trans hl
            cases hcast
        · exact ⟨id, by simp [LeavesEmpty, he]⟩
      · exact ⟨id, by simp [LeavesEmpty, he]⟩
    · exact ⟨id, by simp [LeavesEmpty, he]⟩
  · refine ⟨id, ?_⟩
    rintro ⟨x, y, z, -, -, -, -, rfl, -⟩
    exact hlen rfl

/-! ### `SMOVE` -/

theorem safe_moveElement {d : Data} {keyArg dest : Bytes} (stringArg : Bytes) {m_set : Finset Bytes}
    (hlookup : d.lookup keyArg = some (.set m_set))
    (hdest : ∀ k, d.lookup dest = some k → KeyClass.set.dynamicCast k ≠ none) :
    wp (moveElement keyArg dest stringArg m_set) d (Safe d) := by
  have hcast : ∀ k, (d.insert keyArg (KeyClass.set.toKey (m_set.erase stringArg))).lookup dest = some k →
      KeyClass.set.dynamicCast k ≠ none := by
    intro k hk
    by_cases hsame : dest = keyArg
    · subst hsame
      rw [Finmap.lookup_insert, Option.some.injEq] at hk
      simp [← hk, KeyClass.set]
    · rw [Finmap.lookup_insert_of_ne _ hsame] at hk
      exact hdest k hk
  obtain ⟨other, hcreate⟩ := exists_exec_getCreate hcast
  obtain ⟨sk, hsk, -, -⟩ := exists_lookup_insert (T := .set) dest (insert stringArg other)
    (Finmap.lookup_insert (a := keyArg) (b := KeyClass.set.toKey (m_set.erase stringArg)) d)
  have htail := exec_eraseIf (p := sk = ∅) keyArg (k := KeyClass.set.toKey sk)
    (d := (d.insert keyArg (KeyClass.set.toKey (m_set.erase stringArg))).insert dest
      (KeyClass.set.toKey (insert stringArg other))) (by simp [Key.Inhabited])
  rw [Finmap.insert_of_lookup hsk] at htail
  unfold moveElement wp
  rw [exec_bind_ok (exec_store _ _ _ _), exec_bind_ok hcreate, exec_bind_ok (exec_store _ _ _ _),
    Finmap.insert_insert, exec_bind_ok (exec_get_of_lookup hsk)]
  dsimp only
  rw [exec_bind_ok htail]
  -- the source may be empty before it is written back, everything else is inhabited
  refine fun hd => noEmptyContainer_writeBack (fun name hname k hk => ?_) _
  by_cases hsame : name = dest
  · subst hsame
    rw [Finmap.lookup_insert, Option.some.injEq] at hk
    subst hk
    exact Finset.insert_ne_empty _ _
  · rw [Finmap.lookup_insert_of_ne _ hsame, Finmap.lookup_insert_of_ne _ hname] at hk
    exact hd name k hk

theorem exec_moveElement_error {d : Data} {keyArg dest : Bytes} (stringArg : Bytes) {m_set : Finset Bytes} {k : Key}
    (hlookup : d.lookup keyArg = some (.set m_set)) (hdest : d.lookup dest = some k)
    (hcast : KeyClass.set.dynamicCast k = none) :
    exec (moveElement keyArg dest stringArg m_set) d =
      (.error (.thrown (remoteError INVALID_TYPE)), d.insert keyArg (.set (m_set.erase stringArg))) := by
  have hne : dest ≠ keyArg := by
    rintro rfl
    cases hdest.symm.trans hlookup
    cases hcast
  have hdest' : (d.insert keyArg (.set (m_set.erase stringArg))).lookup dest = some k := by
    rw [Finmap.lookup_insert_of_ne _ hne, hdest]
  unfold moveElement
  rw [exec_bind_ok (exec_store _ _ _ _)]
  exact exec_bind_error (exec_getCreate_error hdest' hcast)

theorem verdict_moveElement {d : Data} {keyArg dest stringArg : Bytes} {m_set : Finset Bytes}
    (hlookup : d.lookup keyArg = some (.set m_set)) (hmem : stringArg ∈ m_set) :
    Verdict (moveElement keyArg dest stringArg m_set) d
      (∃ k, d.lookup dest = some k ∧ KeyClass.set.dynamicCast k = none)
      (∃ k, m_set = {stringArg} ∧ d.lookup dest = some k ∧ KeyClass.set.dynamicCast k = none) := by
  by_cases hcast : ∃ k, d.lookup dest = some k ∧ KeyClass.set.dynamicCast k = none
  · obtain ⟨k, hk, hcast⟩ := hcast
    refine (verdict_insert keyArg (e := some (remoteError INVALID_TYPE)) (a := .null)
      (k := .set (m_set.erase stringArg)) (exec_moveElement_error _ hlookup hk hcast)).congr ?_ fun _ => ?_
    · simp [hlookup, hk, hcast, hmem, eq_comm (a := m_set)]
    · rw [Key.Inhabited, not_not, Finset.erase_eq_empty_iff]
      simp [hk, hcast, Finset.ne_empty_of_mem hmem]
  · push Not at hcast
    refine (verdict_of_safe (safe_moveElement stringArg hlookup hcast)).congr ?_ fun _ => ?_
    · simpa using hcast
    · simpa using fun _ => hcast

theorem verdict_execSmove (S : StdSort) (v : Segment) (d : Data) :
    Verdict (execSmove v) d (Torn d .smove v) (LeavesEmpty S d .smove v) := by
  refine verdict_three (fun x y z hv => ?_) fun hlen => ?_
  · subst hv
    refine verdict_eatString_cons (fun key hkey => ?_) fun e he => ?_
    · refine verdict_eatString_cons (fun dest hdest => ?_) fun e he => ?_
      · refine verdict_eatString_cons (fun s hs => ?_) fun e he => ?_
        · have htorn : Torn d .smove [x, y, z] ↔ ∃ m_set k, d.lookup key = some (.set m_set) ∧ s ∈ m_set ∧
              d.lookup dest = some k ∧ KeyClass.set.dynamicCast k = none := by
            simp [Torn, hkey, hdest, hs]
          have hempty : LeavesEmpty S d .smove [x, y, z] ↔ ∃ k, d.lookup key = some (.set {s}) ∧
              d.lookup dest = some k ∧ KeyClass.set.dynamicCast k = none := by
            simp [LeavesEmpty, hkey, hdest, hs]
          rw [htorn, hempty]
          refine verdict_get (fun hnone => ?_) (fun m_set hlookup => ?_) fun k hk hcast => ?_
          · refine (verdict_of_safe (safe_of_readOnly (.pure _) d)).congr ?_ fun _ => ?_ <;> simp [hnone]
          · dsimp only
            split
            · rename_i hmem
              refine (verdict_moveElement hlookup hmem).congr ?_ fun _ => ?_
              · simp [hlookup, hmem]
              · simp [hlookup]
            · rename_i hmem
              refine (verdict_of_safe (safe_of_readOnly (.pure _) d)).congr ?_ fun _ => ?_
              · simp [hlookup, hmem]
              · have hne : m_set ≠ {s} := by
                  rintro rfl
                  exact hmem (Finset.mem_singleton_self s)
                simp [hlookup, hne]
          · constructor
            · rintro ⟨_, _, hl, -⟩
              cases hk.symm.trans hl
              cases hcast
            · rintro ⟨_, hl, -⟩
              cases hk.symm.trans hl
              cases hcast
        · exact ⟨by simp [Torn, he], by simp [LeavesEmpty, he]⟩
      · exact ⟨by simp [Torn, he], by simp [LeavesEmpty, he]⟩
    · exact ⟨by simp [Torn, he], by simp [LeavesEmpty, he]⟩
  · constructor
    · rintro ⟨x, y, z, -, -, -, -, -, rfl, -⟩
      exact hlen rfl
    · rintro ⟨x, y, z, -, -, -, -, rfl, -⟩
      exact hlen rfl

/-! ### `SORT` -/

theorem flatMap_storedTexts_eq_nil_iff (o : SortOptions) (d : Data) (xs : List Bytes) :
    xs.flatMap (storedTexts d o.storeKey o.getPatterns) = [] ↔ xs = [] := by
  cases xs with
  | nil => simp
  | cons x xs => simp [storedTexts, getPatterns_ne_nil]

theorem verdict_sortStore (o : SortOptions) (originValues : List Bytes) (d : Data) :
    Verdict (sortStore o originValues >>= fun result => pure (.vector result)) d False
      (originValues ≠ [] ∧
        (o.rounds originValues.length = 0 ∨ (int32OfSize originValues.length).toInt ≤ o.first)) := by
  have hbranch := exec_sortStore o originValues d
  split_ifs at hbranch with hnil hstart
  · subst hnil
    refine (verdict_of_safe ?_).congr Iff.rfl fun _ => by simp
    exact fun hd => hd.erase _
  · have hexec : exec (sortStore o originValues >>= fun result => (pure (.vector result) : Db Value)) d =
        (loopOutcome none (.vector []), _) := exec_bind_ok hbranch
    refine (verdict_insert _ hexec).congr (by simp) fun _ => ?_
    rw [Key.Inhabited, not_not, flatMap_storedTexts_eq_nil_iff, o.visitedBy_eq_nil_iff hstart]
    exact (and_iff_right hnil).symm
  · have hexec : exec (sortStore o originValues >>= fun result => (pure (.vector result) : Db Value)) d =
        (.error .undefined, _) := exec_bind_error hbranch
    refine ⟨?_, fun hdef => ?_⟩
    · rw [hexec]
      simp
    · rw [hexec] at hdef
      exact absurd rfl hdef

theorem verdict_executeSortOperation (S : StdSort) (key : Option (List Bytes)) (v : Segment) (d : Data) :
    Verdict (executeSortOperation S key v >>= fun result => pure (.vector result)) d False
      (∃ o sorted, key.getD [] ≠ [] ∧ parseSortOptions v {} = .ok o ∧ o.store = true ∧
        S.sort (sorter d o.pattern o.descending o.alpha) (key.getD []) = .ok sorted ∧
        (o.rounds (key.getD []).length = 0 ∨ (int32OfSize (key.getD []).length).toInt ≤ o.first)) := by
  simp only [executeSortOperation, bind_assoc]
  cases ho : parseSortOptions v {} with
  | error e => exact verdict_bind (.throw _) (fun _ h => by cases h) fun _ _ => ⟨id, by simp⟩
  | ok o =>
    refine verdict_bind (.pure _) (fun o' h => ?_) (fun _ h => by cases h)
    cases h
    refine verdict_bind .get (fun m_data h => ?_) (fun _ h => by cases h)
    cases h
    cases hs : S.sort (sorter d o.pattern o.descending o.alpha) (key.getD []) with
    | error e => exact verdict_bind (.throw _) (fun _ h => by cases h) fun _ _ => ⟨id, by simp [hs]⟩
    | ok sorted =>
      have hperm := S.perm hs
      refine verdict_bind (.pure _) (fun sorted' h => ?_) (fun _ h => by cases h)
      cases h
      cases hstore : o.store with
      | true =>
        refine (verdict_sortStore o sorted d).congr Iff.rfl fun _ => ?_
        rw [← hperm.length_eq]
        simp [hs, hstore, ← List.length_eq_zero_iff, hperm.length_eq]
      | false =>
        refine (verdict_of_safe (safe_of_readOnly (.bind (readOnly_outputLoop _ _ _ _ _) fun _ => .pure _)
          d)).congr Iff.rfl fun _ => ?_
        simp [hstore]

theorem verdict_execSort (S : StdSort) (v : Segment) (d : Data) :
    Verdict (execSort S v) d False (LeavesEmpty S d .sort v) := by
  refine verdict_atLeast (le_refl _) (fun key rest _ hfirst => ?_) ?_
  · refine verdict_bind (readOnly_get _ _) (fun values hvalues => ?_) fun e he => ?_
    · have hempty : LeavesEmpty S d .sort v ↔ ∃ o sorted, values.getD [] ≠ [] ∧
          parseSortOptions rest {} = .ok o ∧ o.store = true ∧
          S.sort (sorter d o.pattern o.descending o.alpha) (values.getD []) = .ok sorted ∧
          (o.rounds (values.getD []).length = 0 ∨ (int32OfSize (values.getD []).length).toInt ≤ o.first) := by
        cases values with
        | none => simp [LeavesEmpty, hfirst, lookup_of_get_none hvalues]
        | some values =>
          obtain ⟨k, hk, hcast⟩ := exists_lookup_of_get hvalues
          simp [LeavesEmpty, hfirst, hk, hcast]
      rw [hempty]
      exact verdict_executeSortOperation S values rest d
    · obtain ⟨k, hk, hcast⟩ := lookup_of_get_error he
      refine ⟨id, ?_⟩
      rintro ⟨_, _, k', _, _, _, hf, hl, hsortable, -⟩
      cases hfirst.symm.trans hf
      cases hk.symm.trans hl
      cases hcast.symm.trans hsortable
  · rintro (hlen | hnone)
    · have hv : v = [] := List.length_eq_zero_iff.mp (by omega)
      subst hv
      refine ⟨id, ?_⟩
      rintro ⟨_, _, _, _, _, _, hf, -⟩
      cases hf
    · refine ⟨id, ?_⟩
      rintro ⟨_, _, _, _, _, _, hf, -⟩
      cases hnone.symm.trans hf

end Afl.Net.Redis
