import Afl.Net.Redis.Commands

/-!
# `SORT` as a sorted, sliced projection

What `SORT` returns, given that `std::sort` sorts: the projections of the elements in a range of an ordered permutation.
`SORT ... STORE` is compared with it. Both loops run over the same positions, from a signed offset that is used as an
index of a vector.
-/

namespace Afl.Net.Redis

open Exec

/-! ### The order -/

/-- `std::sort` sorts: if the predicate compares by some key, wherever it does not throw, then a result is ordered by this
key. (The algorithm knows the predicate from the answers it got only, so it does not matter where it would have thrown.) -/
def StdSort.Sorts (S : StdSort) : Prop :=
  ∀ {ι : Type} [LinearOrder ι] (rank : Bytes → ι) {less : Bytes → Bytes → Except Exception Bool} {xs ys : List Bytes},
    (∀ a b r, less a b = .ok r → (r = true ↔ rank a < rank b)) → S.sort less xs = .ok ys →
      ys.Pairwise fun a b => rank a ≤ rank b

section

variable {ι : Type} [LinearOrder ι] {rank : Bytes → ι} {less : Bytes → Bytes → Except Exception Bool}

theorem insertSorted_pairwise (hless : ∀ a b r, less a b = .ok r → (r = true ↔ rank a < rank b)) {x : Bytes}
    {ys zs : List Bytes} (hys : ys.Pairwise fun a b => rank a ≤ rank b) (h : insertSorted less x ys = .ok zs) :
    zs.Pairwise fun a b => rank a ≤ rank b := by
  fun_induction insertSorted less x ys generalizing zs with
  | case1 =>
    cases h
    exact List.pairwise_singleton _ _
  | case2 => cases h
  | case3 y ys hlt =>
    cases h
    have hxy : rank x ≤ rank y := ((hless x y true hlt).mp rfl).le
    refine List.pairwise_cons.mpr ⟨fun b hb => ?_, hys⟩
    rcases List.mem_cons.mp hb with rfl | hb
    · exact hxy
    · exact hxy.trans (List.rel_of_pairwise_cons hys hb)
  | case4 => cases h
  | case5 y ys hge zs' hrest ih =>
    cases h
    have hyx : rank y ≤ rank x := not_lt.mp fun hlt => Bool.false_ne_true ((hless x y false hge).mpr hlt)
    refine List.pairwise_cons.mpr ⟨fun b hb => ?_, ih hys.of_cons hrest⟩
    rcases List.mem_cons.mp ((insertSorted_perm hrest).mem_iff.mp hb) with rfl | hb
    · exact hyx
    · exact List.rel_of_pairwise_cons hys hb

theorem insertionSort_pairwise (hless : ∀ a b r, less a b = .ok r → (r = true ↔ rank a < rank b)) {xs ys : List Bytes}
    (h : insertionSort less xs = .ok ys) : ys.Pairwise fun a b => rank a ≤ rank b := by
  fun_induction insertionSort less xs generalizing ys with
  | case1 =>
    cases h
    exact .nil
  | case2 => cases h
  | case3 x xs ys' hrest ih => exact insertSorted_pairwise hless (ih hrest) h

end

theorem sorts_insertion : StdSort.insertion.Sorts := fun _ _ _ _ hless h => insertionSort_pairwise hless h

/-- The text an element is sorted by; one without a value is sorted as the empty string. -/
def sortText (d : Data) (pattern a : Bytes) : Bytes := (getSortValue d a pattern).getD []

/-- The texts are in order: bytewise, or as the numbers they are. -/
def TextsInOrder (alpha : Bool) (as bs : Bytes) : Prop :=
  if alpha then strLe as bs else ∀ i j, sortInteger as = some i → sortInteger bs = some j → i ≤ j

/-- The element `a` may stand before `b`. -/
def SortOptions.InOrder (o : SortOptions) (d : Data) (a b : Bytes) : Prop :=
  if o.descending then TextsInOrder o.alpha (sortText d o.pattern b) (sortText d o.pattern a)
  else TextsInOrder o.alpha (sortText d o.pattern a) (sortText d o.pattern b)

def textRank (s : Bytes) : Int := ((sortInteger s).getD 0).toInt

theorem textsInOrder_of_rank {as bs : Bytes} (h : textRank as ≤ textRank bs) : TextsInOrder false as bs := by
  intro i j hi hj
  rw [textRank, textRank, hi, hj] at h
  exact Int32.le_iff_toInt_le.mpr h

theorem sorter_alpha {d : Data} {pattern a b : Bytes} {descending r : Bool}
    (h : sorter d pattern descending true a b = .ok r) :
    r = true ↔ if descending then strLt (sortText d pattern b) (sortText d pattern a)
      else strLt (sortText d pattern a) (sortText d pattern b) := by
  cases descending <;> cases h <;> simp [sortText]

theorem numbers_lt {as bs : Bytes} {r : Bool}
    (h : (match sortInteger as, sortInteger bs with
      | some ai, some bi => .ok (decide (ai < bi))
      | _, _ => .error (remoteError INVALID_TYPE_INT) : Except Exception Bool) = .ok r) :
    r = true ↔ textRank as < textRank bs := by
  unfold textRank
  cases has : sortInteger as with
  | none =>
    rw [has] at h
    cases h
  | some ai =>
    cases hbs : sortInteger bs with
    | none =>
      rw [has, hbs] at h
      cases h
    | some bi =>
      rw [has, hbs] at h
      cases h
      exact decide_eq_true_iff.trans Int32.lt_iff_toInt_lt

theorem sorter_numeric {d : Data} {pattern a b : Bytes} {descending r : Bool}
    (h : sorter d pattern descending false a b = .ok r) :
    r = true ↔ if descending then textRank (sortText d pattern b) < textRank (sortText d pattern a)
      else textRank (sortText d pattern a) < textRank (sortText d pattern b) := by
  cases descending with
  | false => exact numbers_lt h
  | true => exact numbers_lt h

theorem pairwise_inOrder {S : StdSort} (hS : S.Sorts) {d : Data} {o : SortOptions} {xs sorted : List Bytes}
    (h : S.sort (sorter d o.pattern o.descending o.alpha) xs = .ok sorted) : sorted.Pairwise (o.InOrder d) := by
  unfold SortOptions.InOrder
  cases halpha : o.alpha with
  | true =>
    rw [halpha] at h
    cases hdescending : o.descending with
    | true =>
      rw [hdescending] at h
      refine hS (fun a => OrderDual.toDual ((sortText d o.pattern a).map UInt8.toNat)) (fun a b r hr => ?_) h
      exact sorter_alpha hr
    | false =>
      rw [hdescending] at h
      refine hS (fun a => (sortText d o.pattern a).map UInt8.toNat) (fun a b r hr => ?_) h
      exact sorter_alpha hr
  | false =>
    rw [halpha] at h
    cases hdescending : o.descending with
    | true =>
      rw [hdescending] at h
      refine (hS (fun a => OrderDual.toDual (textRank (sortText d o.pattern a))) (fun a b r hr => ?_) h).imp
        fun hle => textsInOrder_of_rank hle
      exact sorter_numeric hr
    | false =>
      rw [hdescending] at h
      refine (hS (fun a => textRank (sortText d o.pattern a)) (fun a b r hr => ?_) h).imp
        fun hle => textsInOrder_of_rank hle
      exact sorter_numeric hr

/-! ### The loops -/

/-- The elements that both loops use, when they start at position `i`. -/
def visited (xs : List Bytes) (count i : Nat) : List Bytes :=
  (xs.drop i).take (min count ((int32OfSize xs.length).toInt - i).toNat)

theorem int32OfSize_le (n : Nat) : (int32OfSize n).toInt ≤ n := by
  have hbmod : (int32OfSize n).toInt = (n : Int).bmod (2 ^ 32) := Int32.toInt_ofInt
  rw [hbmod, Int.bmod_def]
  split_ifs <;> omega

theorem visited_zero (xs : List Bytes) (i : Nat) : visited xs 0 i = [] := by
  rw [visited, Nat.zero_min, List.take_zero]

variable {xs : List Bytes}

theorem visited_of_le {i : Nat} (h : (int32OfSize xs.length).toInt ≤ i) (count : Nat) :
    visited xs count i = [] := by
  rw [visited, Int.toNat_eq_zero.mpr (by omega), Nat.min_zero, List.take_zero]

theorem visited_succ {i : Nat} (h : (i : Int) < (int32OfSize xs.length).toInt) (count : Nat) :
    ∃ x, xs[i]? = some x ∧ visited xs (count + 1) i = x :: visited xs count (i + 1) := by
  have hle := int32OfSize_le xs.length
  have hi : i < xs.length := by omega
  refine ⟨xs[i], List.getElem?_eq_getElem hi, ?_⟩
  have hcount : min (count + 1) ((int32OfSize xs.length).toInt - i).toNat =
      min count ((int32OfSize xs.length).toInt - (i + 1 : Nat)).toNat + 1 := by omega
  rw [visited, hcount, List.drop_eq_getElem_cons hi, List.take_succ_cons, visited]

/-- What the patterns make of an element. -/
def projections (d : Data) (get : List Bytes) (origin : Bytes) : Segment :=
  get.map fun pattern =>
    match getSortValue d origin pattern with
    | some tmp => .string tmp
    | none => .null

theorem exec_vectorAt_of_getElem? {i : Nat} {x : Bytes} (h : xs[i]? = some x) (d : Data) :
    exec (vectorAt xs i) d = (.ok x, d) := by
  rw [vectorAt, if_neg (by omega), Int.toNat_natCast, h]
  rfl

theorem exec_outputLoop (get xs : List Bytes) (count i : Nat) (out : Segment) (d : Data) :
    exec (outputLoop get xs count i out) d = (.ok (out ++ (visited xs count i).flatMap (projections d get)), d) := by
  induction count generalizing i out with
  | zero =>
    rw [outputLoop, visited_zero, List.flatMap_nil, List.append_nil]
    rfl
  | succ count ih =>
    rw [outputLoop]
    split_ifs with hi
    · obtain ⟨x, hx, hvisited⟩ := visited_succ hi count
      rw [exec_bind_ok (exec_vectorAt_of_getElem? hx d), exec_bind_ok (exec_get d), hvisited, List.flatMap_cons,
        ← List.append_assoc]
      exact ih (i + 1) _
    · rw [visited_of_le (not_lt.mp hi), List.flatMap_nil, List.append_nil]
      rfl

theorem exec_outputLoop_neg (get xs : List Bytes) {count : Nat} (hcount : 0 < count) {i : Int} (hi : i < 0)
    (hsize : i < (int32OfSize xs.length).toInt) (out : Segment) (d : Data) :
    exec (outputLoop get xs count i out) d = (.error .undefined, d) := by
  obtain ⟨count, rfl⟩ := Nat.exists_eq_succ_of_ne_zero hcount.ne'
  rw [outputLoop, if_pos hsize]
  apply exec_bind_error
  rw [vectorAt, if_pos hi]
  rfl

/-! ### What `SORT` returns -/

namespace SortOptions

/-- The elements at the positions from `offset` to `offset + count - 1`, as far as there are such. -/
def selected (o : SortOptions) (xs : List Bytes) : List Bytes :=
  if o.limit then (xs.take (o.offset.toInt + o.count.toInt).toNat).drop o.offset.toInt.toNat else xs

/-- The position after the last selected one. -/
def stop (o : SortOptions) (size : Nat) : Int :=
  if o.limit then min (o.offset.toInt + o.count.toInt) size else size

/-- The loop does not start before the first element, and the selected positions are below the size as the loop
converts it. -/
def InReach (o : SortOptions) (size : Nat) : Prop :=
  (0 ≤ o.first ∨ o.rounds size = 0 ∨ (int32OfSize size).toInt ≤ o.first) ∧
    o.stop size ≤ max (max o.first 0) (int32OfSize size).toInt

instance (o : SortOptions) (size : Nat) : Decidable (o.InReach size) := inferInstanceAs (Decidable (_ ∧ _))

theorem inReach_iff (o : SortOptions) {size : Nat} (h : size < 2 ^ 31) :
    o.InReach size ↔ (o.limit = true → 0 ≤ o.offset.toInt ∨ o.count.toInt ≤ 0) := by
  have hsize : (int32OfSize size).toInt = size := Int32.toInt_ofInt_of_le (by omega) (by omega)
  unfold InReach first rounds stop
  rw [hsize]
  cases o.limit with
  | true =>
    simp only [if_true, forall_const]
    omega
  | false => exact iff_of_true ⟨.inl le_rfl, le_max_right _ _⟩ fun h => absurd h Bool.false_ne_true

theorem selected_eq (o : SortOptions) (xs : List Bytes) :
    o.selected xs = (xs.drop (max o.first 0).toNat).take (o.stop xs.length - max o.first 0).toNat := by
  unfold selected stop first
  cases o.limit with
  | true =>
    have hfirst : (max o.offset.toInt 0).toNat = o.offset.toInt.toNat := by omega
    rw [if_pos rfl, if_pos rfl, if_pos rfl, List.drop_take, hfirst, List.take_eq_take_iff, List.length_drop]
    omega
  | false =>
    rw [if_neg Bool.false_ne_true, if_neg Bool.false_ne_true, if_neg Bool.false_ne_true]
    exact (List.take_length (l := xs)).symm

/-- The elements that the loops visit. -/
def visitedBy (o : SortOptions) (xs : List Bytes) : List Bytes :=
  if o.first < 0 then [] else visited xs (o.rounds xs.length) o.first.toNat

theorem length_visitedBy (o : SortOptions) (xs : List Bytes) :
    (o.visitedBy xs).length =
      if o.first < 0 then 0 else (min (o.first + o.rounds xs.length) (int32OfSize xs.length).toInt - o.first).toNat := by
  have hle := int32OfSize_le xs.length
  unfold visitedBy visited
  split_ifs with h
  · rfl
  · rw [List.length_take, List.length_drop]
    omega

theorem length_selected (o : SortOptions) (xs : List Bytes) :
    (o.selected xs).length = (o.stop xs.length - max o.first 0).toNat := by
  have hle : o.stop xs.length ≤ xs.length := by
    unfold stop
    split_ifs
    · exact min_le_right _ _
    · exact le_refl _
  rw [selected_eq, List.length_take, List.length_drop]
  omega

theorem length_visitedBy_iff (o : SortOptions)
    (hstart : 0 ≤ o.first ∨ o.rounds xs.length = 0 ∨ (int32OfSize xs.length).toInt ≤ o.first) :
    (o.visitedBy xs).length = (o.selected xs).length ↔ o.InReach xs.length := by
  have hle := int32OfSize_le xs.length
  rw [InReach, and_iff_right hstart, length_visitedBy, length_selected]
  revert hstart
  unfold stop first rounds
  cases o.limit with
  | true =>
    simp only [if_true]
    split_ifs <;> omega
  | false =>
    simp only [if_neg Bool.false_ne_true]
    split_ifs <;> omega

theorem visitedBy_eq_selected (o : SortOptions)
    (h : (o.visitedBy xs).length = (o.selected xs).length) : o.visitedBy xs = o.selected xs := by
  by_cases hfirst : o.first < 0
  · have hnil : o.visitedBy xs = [] := if_pos hfirst
    rw [hnil] at h ⊢
    exact (List.length_eq_zero_iff.mp h.symm).symm
  · have hmax : max o.first 0 = o.first := by omega
    rw [visitedBy, if_neg hfirst, visited, selected_eq, hmax] at h ⊢
    rw [List.length_take, List.length_take] at h
    exact List.take_eq_take_iff.mpr h

end SortOptions

/-! ### The command -/

section

variable {S : StdSort} {rand : Nat} {d : Data} {o : SortOptions} {xs sorted : List Bytes}

theorem exec_outputLoop_options
    (hstart : 0 ≤ o.first ∨ o.rounds xs.length = 0 ∨ (int32OfSize xs.length).toInt ≤ o.first) (get : List Bytes) :
    exec (outputLoop get xs (o.rounds xs.length) o.first []) d =
      (.ok ((o.visitedBy xs).flatMap (projections d get)), d) := by
  by_cases hfirst : o.first < 0
  · rw [SortOptions.visitedBy, if_pos hfirst, List.flatMap_nil]
    cases hrounds : o.rounds xs.length with
    | zero => rfl
    | succ count =>
      have hend : ¬o.first < (int32OfSize xs.length).toInt := by omega
      rw [outputLoop, if_neg hend]
      rfl
  · have hloop := exec_outputLoop get xs (o.rounds xs.length) o.first.toNat [] d
    rw [Int.toNat_of_nonneg (not_lt.mp hfirst)] at hloop
    rw [SortOptions.visitedBy, if_neg hfirst, hloop, List.nil_append]

/-- The values a source key is sorted from; a missing key has none. -/
def sourceValues (d : Data) (k : Bytes) : Option (List Bytes) :=
  match d.lookup k with
  | none => some []
  | some c => sortableValues c

variable {k : Bytes} {v : Segment}

theorem exec_executeSort (hparse : parseSortOptions v {} = .ok o) :
    exec (executeVerb S rand .sort (.string k :: v)) d =
      match sourceValues d k with
      | none => (.error (.thrown (remoteError INVALID_TYPE)), d)
      | some xs =>
        match S.sort (sorter d o.pattern o.descending o.alpha) xs with
        | .error e => (.error (.thrown e), d)
        | .ok sorted =>
          exec ((if o.store then sortStore o sorted
            else outputLoop o.getPatterns sorted (o.rounds sorted.length) o.first []) >>= fun result =>
              (pure (.vector result) : Db Value)) d := by
  have hoperation : ∀ key : Option (List Bytes), exec (executeSortOperation S key v) d =
      match S.sort (sorter d o.pattern o.descending o.alpha) (key.getD []) with
      | .error e => (.error (.thrown e), d)
      | .ok sorted =>
        exec (if o.store then sortStore o sorted
          else outputLoop o.getPatterns sorted (o.rounds sorted.length) o.first []) d := by
    intro key
    rw [executeSortOperation, hparse, exec_bind_ok (exec_liftE_ok _ _), exec_bind_ok (exec_get d)]
    cases S.sort (sorter d o.pattern o.descending o.alpha) (key.getD []) with
    | error e => exact exec_bind_error (exec_liftE_error _ _)
    | ok sorted => exact exec_bind_ok (exec_liftE_ok _ _)
  have hbind : ∀ key : Option (List Bytes),
      exec (executeSortOperation S key v >>= fun result => (pure (.vector result) : Db Value)) d =
      match S.sort (sorter d o.pattern o.descending o.alpha) (key.getD []) with
      | .error e => (.error (.thrown e), d)
      | .ok sorted =>
        exec ((if o.store then sortStore o sorted
          else outputLoop o.getPatterns sorted (o.rounds sorted.length) o.first []) >>= fun result =>
            (pure (.vector result) : Db Value)) d := by
    intro key
    rw [exec_bind, hoperation]
    cases S.sort (sorter d o.pattern o.descending o.alpha) (key.getD []) with
    | error e => rfl
    | ok sorted => exact (exec_bind _ _ d).symm
  rw [executeVerb, execSort, exec_checkArgumentCountAtLeast_bind (by simp), exec_eatString_bind (eatString_string _ _)]
  dsimp only
  unfold sourceValues
  cases hk : d.lookup k with
  | none =>
    have hget : exec (get sortableValues k) d = (.ok none, d) := by rw [exec_get_key, hk]
    rw [exec_bind_ok hget, hbind]
    rfl
  | some c =>
    have hget := exec_get_key sortableValues k d
    rw [hk] at hget
    dsimp only at hget ⊢
    cases hc : sortableValues c with
    | none =>
      rw [hc] at hget
      exact exec_bind_error hget
    | some xs =>
      rw [hc] at hget
      rw [exec_bind_ok hget, hbind]
      rfl

theorem length_flatMap_projections (d : Data) (get xs : List Bytes) :
    (xs.flatMap (projections d get)).length = get.length * xs.length := by
  induction xs with
  | nil => rfl
  | cons x xs ih =>
    rw [List.flatMap_cons, List.length_append, ih, projections, List.length_map, List.length_cons, Nat.mul_succ,
      Nat.add_comm]

theorem getPatterns_ne_nil (o : SortOptions) : o.getPatterns ≠ [] := by
  unfold SortOptions.getPatterns
  split
  · simp
  · assumption

theorem length_of_flatMap_projections {ys : List Bytes}
    (h : (xs.flatMap (projections d o.getPatterns)).length = (ys.flatMap (projections d o.getPatterns)).length) :
    xs.length = ys.length := by
  rw [length_flatMap_projections, length_flatMap_projections] at h
  exact Nat.eq_of_mul_eq_mul_left (List.length_pos_iff.mpr (getPatterns_ne_nil o)) h

theorem exists_sorted (hparse : parseSortOptions v {} = .ok o)
    (hreturns : ∀ e, (exec (call S rand (.string Verb.sort.text :: .string k :: v)) d).1 ≠ .error (.thrown e)) :
    ∃ xs sorted, sourceValues d k = some xs ∧ S.sort (sorter d o.pattern o.descending o.alpha) xs = .ok sorted := by
  have hbranch : exec (executeVerb S rand .sort (.string k :: v)) d = _ := exec_executeSort hparse
  cases hsource : sourceValues d k with
  | none =>
    rw [hsource] at hbranch
    obtain ⟨e', hthrown⟩ := exec_call_thrown hbranch
    exact (hreturns e' (congrArg Prod.fst hthrown)).elim
  | some xs =>
    rw [hsource] at hbranch
    dsimp only at hbranch
    cases hsort : S.sort (sorter d o.pattern o.descending o.alpha) xs with
    | error e =>
      rw [hsort] at hbranch
      obtain ⟨e', hthrown⟩ := exec_call_thrown hbranch
      exact (hreturns e' (congrArg Prod.fst hthrown)).elim
    | ok sorted => exact ⟨xs, sorted, rfl, hsort⟩

theorem exec_sort_plain (hsource : sourceValues d k = some xs) (hparse : parseSortOptions v {} = .ok o)
    (hstore : o.store = false) (hsort : S.sort (sorter d o.pattern o.descending o.alpha) xs = .ok sorted) :
    exec (call S rand (.string Verb.sort.text :: .string k :: v)) d =
      if 0 ≤ o.first ∨ o.rounds sorted.length = 0 ∨ (int32OfSize sorted.length).toInt ≤ o.first then
        (.ok (.vector ((o.visitedBy sorted).flatMap (projections d o.getPatterns))), d)
      else (.error .undefined, d) := by
  have hbranch : exec (executeVerb S rand .sort (.string k :: v)) d =
      exec (outputLoop o.getPatterns sorted (o.rounds sorted.length) o.first [] >>= fun result =>
        (pure (.vector result) : Db Value)) d := by
    rw [exec_executeSort hparse, hsource]
    dsimp only
    rw [hsort, hstore]
    rfl
  split_ifs with hstart
  · exact exec_call_ok (hbranch.trans (exec_bind_ok (exec_outputLoop_options hstart _)))
  · push Not at hstart
    rw [exec_call, hbranch, exec_bind_error (exec_outputLoop_neg _ _ (Nat.pos_of_ne_zero hstart.2.1) hstart.1
      hstart.2.2 _ _)]
    rfl

end

/-- **`SORT` is a sorted, sliced projection** exactly if the range it is asked for is in reach. -/
theorem sort_projects_iff {S : StdSort} (hS : S.Sorts) (rand : Nat) {d : Data} {k : Bytes} {c : Key}
    {values : List Bytes} {v : Segment} {o : SortOptions} (hk : d.lookup k = some c)
    (hvalues : sortableValues c = some values) (hparse : parseSortOptions v {} = .ok o) (hstore : o.store = false)
    (hreturns : ∀ e, (exec (call S rand (.string (lit "SORT") :: .string k :: v)) d).1 ≠ .error (.thrown e)) :
    (∃ sorted : List Bytes, sorted.Perm values ∧ sorted.Pairwise (o.InOrder d) ∧
      exec (call S rand (.string (lit "SORT") :: .string k :: v)) d =
        (.ok (.vector ((o.selected sorted).flatMap (projections d o.getPatterns))), d)) ↔
      o.InReach values.length := by
  have hsource : sourceValues d k = some values := by rw [sourceValues, hk]; exact hvalues
  obtain ⟨_, sorted, hxs, hsort⟩ := exists_sorted hparse hreturns
  cases hsource.symm.trans hxs
  have hplain : exec (call S rand (.string (lit "SORT") :: .string k :: v)) d = _ :=
    exec_sort_plain hsource hparse hstore hsort
  have hlength : sorted.length = values.length := (S.perm hsort).length_eq
  rw [hplain]
  constructor
  · rintro ⟨other, hperm, -, hexec⟩
    split_ifs at hexec with hstart
    · have hselected : (o.selected other).length = (o.selected sorted).length := by
        rw [o.length_selected, o.length_selected, hperm.length_eq, hlength]
      have hvectors := Value.vector.inj (Except.ok.inj (Prod.ext_iff.mp hexec).1)
      rw [← hlength, ← o.length_visitedBy_iff hstart, ← hselected]
      exact length_of_flatMap_projections (congrArg List.length hvectors)
    · cases hexec
  · intro hreach
    rw [← hlength] at hreach
    refine ⟨sorted, S.perm hsort, pairwise_inOrder hS hsort, ?_⟩
    rw [if_pos hreach.1, o.visitedBy_eq_selected ((o.length_visitedBy_iff hreach.1).mpr hreach)]

def threeNumbers : Data := (∅ : Data).insert (lit "k") (.list [lit "2", lit "10", lit "3"])

theorem sort_projects_second :
    ∃ sorted : List Bytes, sorted.Perm [lit "2", lit "10", lit "3"] ∧
      sorted.Pairwise (({ limit := true, offset := 1, count := 1 } : SortOptions).InOrder threeNumbers) ∧
      exec (call .insertion 0 [.string (lit "SORT"), .string (lit "k"), .string (lit "LIMIT"), .integer 1, .integer 1])
          threeNumbers =
        (.ok (.vector ((({ limit := true, offset := 1, count := 1 } : SortOptions).selected sorted).flatMap
          (projections threeNumbers [lit "#"]))), threeNumbers) :=
  (sort_projects_iff sorts_insertion 0 (o := { limit := true, offset := 1, count := 1 }) (v := [.string (lit "LIMIT"), .integer 1, .integer 1])
    (Finmap.lookup_insert _) rfl rfl rfl (fun e h => by cases h)).mpr (by decide)

/-- With a negative offset, the vector is indexed before its begin. -/
theorem sort_before_begin :
    exec (call .insertion 0 [.string (lit "SORT"), .string (lit "k"), .string (lit "LIMIT"), .integer (-1), .integer 1])
      threeNumbers = (.error .undefined, threeNumbers) := rfl

/-! ### Storing the result -/

/-- The key a pattern is looked up under. -/
def keyRead (origin pattern : Bytes) : Option Bytes :=
  if pattern = lit "#" then none
  else
    match splitArrow (replaceStar pattern origin) with
    | some (key, _) => some key
    | none => some (replaceStar pattern origin)

theorem getSortValue_insert_list (d : Data) (dest origin pattern : Bytes) (l : List Bytes) :
    getSortValue (d.insert dest (.list l)) origin pattern =
      if keyRead origin pattern = some dest then none else getSortValue d origin pattern := by
  unfold getSortValue keyRead
  by_cases hself : pattern = lit "#"
  · rw [if_pos hself, if_pos hself, if_pos hself, if_neg (Option.some_ne_none dest).symm]
  · rw [if_neg hself, if_neg hself, if_neg hself]
    dsimp only
    cases splitArrow (replaceStar pattern origin) with
    | none =>
      dsimp only
      by_cases hdest : replaceStar pattern origin = dest
      · rw [if_pos (congrArg some hdest), hdest, Finmap.lookup_insert]
      · rw [if_neg (fun h => hdest (Option.some.inj h)), Finmap.lookup_insert_of_ne _ hdest]
    | some p =>
      dsimp only
      by_cases hdest : p.1 = dest
      · rw [if_pos (congrArg some hdest), hdest, Finmap.lookup_insert]
      · rw [if_neg (fun h => hdest (Option.some.inj h)), Finmap.lookup_insert_of_ne _ hdest]

/-- What is stored for an element: the destination has been overwritten when it is read. -/
def storedTexts (d : Data) (dest : Bytes) (get : List Bytes) (origin : Bytes) : List Bytes :=
  get.map fun pattern =>
    if keyRead origin pattern = some dest then [] else (getSortValue d origin pattern).getD []

theorem exec_storeValues (d : Data) (dest origin : Bytes) (get lk : List Bytes) :
    exec (storeValues dest origin get lk) (d.insert dest (.list lk)) =
      (.ok (lk ++ storedTexts d dest get origin), d.insert dest (.list (lk ++ storedTexts d dest get origin))) := by
  induction get generalizing lk with
  | nil =>
    rw [storedTexts, List.map_nil, List.append_nil]
    rfl
  | cons pattern get ih =>
    have htext : (getSortValue (d.insert dest (.list lk)) origin pattern).getD [] =
        if keyRead origin pattern = some dest then [] else (getSortValue d origin pattern).getD [] := by
      rw [getSortValue_insert_list]
      split_ifs <;> rfl
    rw [storeValues, exec_bind_ok (exec_get _), exec_bind_ok (exec_store _ _ _ _), Finmap.insert_insert, list_toKey,
      ih, htext, List.append_assoc]
    rfl

theorem exec_storeLoop (d : Data) (dest : Bytes) (get xs : List Bytes) (count i : Nat) (lk : List Bytes) :
    exec (storeLoop dest get xs count i lk) (d.insert dest (.list lk)) =
      (.ok (), d.insert dest (.list (lk ++ (visited xs count i).flatMap (storedTexts d dest get)))) := by
  induction count generalizing i lk with
  | zero =>
    rw [storeLoop, visited_zero, List.flatMap_nil, List.append_nil]
    rfl
  | succ count ih =>
    rw [storeLoop]
    split_ifs with hi
    · obtain ⟨x, hx, hvisited⟩ := visited_succ hi count
      rw [exec_bind_ok (exec_vectorAt_of_getElem? hx _), exec_bind_ok (exec_storeValues _ _ _ _ _), hvisited,
        List.flatMap_cons, ← List.append_assoc]
      exact ih (i + 1) _
    · rw [visited_of_le (not_lt.mp hi), List.flatMap_nil, List.append_nil]
      rfl

theorem exec_storeLoop_neg (dest : Bytes) (get xs : List Bytes) (count : Nat) {i : Int} (hi : i < 0) (lk : List Bytes)
    (d : Data) :
    exec (storeLoop dest get xs count i lk) d =
      if count = 0 ∨ (int32OfSize xs.length).toInt ≤ i then (.ok (), d) else (.error .undefined, d) := by
  cases count with
  | zero => rfl
  | succ count =>
    rw [storeLoop]
    by_cases hsize : i < (int32OfSize xs.length).toInt
    · rw [if_pos hsize, if_neg (by omega)]
      apply exec_bind_error
      rw [vectorAt, if_pos hi]
      rfl
    · rw [if_neg hsize, if_pos (.inr (not_lt.mp hsize))]
      rfl

theorem exec_sortStore (o : SortOptions) (xs : List Bytes) (d : Data) :
    exec (sortStore o xs) d =
      if xs = [] then (.ok [], d.erase o.storeKey)
      else if 0 ≤ o.first ∨ o.rounds xs.length = 0 ∨ (int32OfSize xs.length).toInt ≤ o.first then
        (.ok [], d.insert o.storeKey (.list ((o.visitedBy xs).flatMap (storedTexts d o.storeKey o.getPatterns))))
      else (.error .undefined, d.insert o.storeKey (.list [])) := by
  rw [sortStore, exec_bind_ok (exec_erase _ _)]
  by_cases hnil : xs = []
  · rw [if_pos hnil, if_neg (not_not.mpr hnil)]
    rfl
  · have hcreate : exec (getCreate .list o.storeKey) (d.erase o.storeKey) = _ :=
      exec_getCreate (.inr ⟨Finmap.lookup_erase _ _, rfl⟩)
    rw [if_neg hnil, if_pos hnil, exec_bind_ok hcreate, Finmap.insert_erase_self, SortOptions.visitedBy]
    by_cases hfirst : o.first < 0
    · have hloop := exec_storeLoop_neg o.storeKey o.getPatterns xs (o.rounds xs.length) hfirst []
        (d.insert o.storeKey (.list []))
      rw [if_pos hfirst]
      by_cases hstart : o.rounds xs.length = 0 ∨ (int32OfSize xs.length).toInt ≤ o.first
      · rw [if_pos hstart] at hloop
        rw [if_pos (.inr hstart)]
        exact exec_bind_ok hloop
      · rw [if_neg hstart] at hloop
        rw [if_neg (by omega)]
        exact exec_bind_error hloop
    · have hloop := exec_storeLoop d o.storeKey o.getPatterns xs (o.rounds xs.length) o.first.toNat []
      rw [Int.toNat_of_nonneg (not_lt.mp hfirst), List.nil_append] at hloop
      rw [if_neg hfirst, if_pos (.inl (not_lt.mp hfirst))]
      exact exec_bind_ok hloop

theorem SortOptions.visitedBy_eq_nil_iff (o : SortOptions)
    (hstart : 0 ≤ o.first ∨ o.rounds xs.length = 0 ∨ (int32OfSize xs.length).toInt ≤ o.first) :
    o.visitedBy xs = [] ↔ o.rounds xs.length = 0 ∨ (int32OfSize xs.length).toInt ≤ o.first := by
  rw [← List.length_eq_zero_iff, o.length_visitedBy]
  split_ifs <;> omega

/-- The text of a returned value; null is stored as the empty string. -/
def valueText : Value → Bytes
  | .string s => s
  | _ => []

/-- What is stored is what would be returned, unless the destination has a text for a pattern. -/
theorem storedTexts_eq_iff (d : Data) (dest : Bytes) (get : List Bytes) (origin : Bytes) :
    storedTexts d dest get origin = (projections d get origin).map valueText ↔
      ∀ pattern ∈ get, keyRead origin pattern = some dest → (getSortValue d origin pattern).getD [] = [] := by
  rw [storedTexts, projections, List.map_map, List.map_inj_left]
  refine forall₂_congr fun pattern _ => ?_
  have htext : valueText (match getSortValue d origin pattern with
      | some tmp => .string tmp
      | none => .null) = (getSortValue d origin pattern).getD [] := by
    cases getSortValue d origin pattern <;> rfl
  rw [Function.comp_apply, htext]
  split_ifs with hread
  · exact ⟨fun h _ => h.symm, fun h => (h hread).symm⟩
  · exact iff_of_true rfl fun h => (hread h).elim

theorem flatMap_eq_iff {α β : Type} {f g : α → List β} (hlength : ∀ x, (f x).length = (g x).length) (xs : List α) :
    xs.flatMap f = xs.flatMap g ↔ ∀ x ∈ xs, f x = g x := by
  induction xs with
  | nil => simp
  | cons x xs ih =>
    rw [List.flatMap_cons, List.flatMap_cons, List.forall_mem_cons, ← ih]
    refine ⟨fun h => List.append_inj h (hlength x), fun h => by rw [h.1, h.2]⟩

/-- The source is empty or an element of it is selected, and no `GET` pattern finds a text under the destination for a
selected element. -/
def SortOptions.StoresResult (o : SortOptions) (S : StdSort) (d : Data) (k : Bytes) : Prop :=
  ∀ xs sorted, sourceValues d k = some xs → S.sort (sorter d o.pattern o.descending o.alpha) xs = .ok sorted →
    (xs = [] ∨ 0 < o.rounds xs.length ∧ o.first < (int32OfSize xs.length).toInt) ∧
    ∀ origin ∈ o.visitedBy sorted, ∀ pattern ∈ o.getPatterns, keyRead origin pattern = some o.storeKey →
      (getSortValue d origin pattern).getD [] = []

theorem SortOptions.storesResult_iff (o : SortOptions) {S : StdSort} {d : Data} {k : Bytes} {xs sorted : List Bytes}
    (hsource : sourceValues d k = some xs) (hsort : S.sort (sorter d o.pattern o.descending o.alpha) xs = .ok sorted) :
    o.StoresResult S d k ↔
      (xs = [] ∨ 0 < o.rounds xs.length ∧ o.first < (int32OfSize xs.length).toInt) ∧
        ∀ origin ∈ o.visitedBy sorted, ∀ pattern ∈ o.getPatterns, keyRead origin pattern = some o.storeKey →
          (getSortValue d origin pattern).getD [] = [] := by
  refine ⟨fun h => h xs sorted hsource hsort, fun h xs' sorted' hsource' hsort' => ?_⟩
  cases hsource.symm.trans hsource'
  cases hsort.symm.trans hsort'
  exact h

section

variable {S : StdSort} {rand : Nat} {d : Data} {k : Bytes} {v : Segment} {o : SortOptions} {xs sorted : List Bytes}

theorem exec_sort_stored (hsource : sourceValues d k = some xs) (hparse : parseSortOptions v {} = .ok o)
    (hstore : o.store = true) (hsort : S.sort (sorter d o.pattern o.descending o.alpha) xs = .ok sorted)
    (hstart : 0 ≤ o.first ∨ o.rounds sorted.length = 0 ∨ (int32OfSize sorted.length).toInt ≤ o.first) :
    exec (call S rand (.string Verb.sort.text :: .string k :: v)) d =
      (.ok (.vector []), if sorted = [] then d.erase o.storeKey
        else d.insert o.storeKey (.list ((o.visitedBy sorted).flatMap (storedTexts d o.storeKey o.getPatterns)))) := by
  have hbranch := exec_sortStore o sorted d
  rw [if_pos hstart, ← apply_ite (Prod.mk (Except.ok []))] at hbranch
  apply exec_call_ok
  rw [exec_executeSort hparse, hsource]
  dsimp only
  rw [hsort, hstore]
  exact exec_bind_ok hbranch

theorem visitedBy_nil (o : SortOptions) : o.visitedBy [] = [] := by
  have hlength := o.length_visitedBy []
  have hzero : (int32OfSize ([] : List Bytes).length).toInt = 0 := by decide
  rw [hzero] at hlength
  apply List.length_eq_zero_iff.mp
  rw [hlength]
  split_ifs <;> omega

theorem stored_eq_iff (o : SortOptions) (d : Data) (sorted : List Bytes) {w : Segment}
    (hw : (o.visitedBy sorted).flatMap (projections d o.getPatterns) = w) :
    ((if sorted = [] then d.erase o.storeKey
        else d.insert o.storeKey (.list ((o.visitedBy sorted).flatMap (storedTexts d o.storeKey o.getPatterns)))) =
      if w = [] then d.erase o.storeKey else d.insert o.storeKey (.list (w.map valueText))) ↔
      (sorted = [] ∨ o.visitedBy sorted ≠ []) ∧
        ∀ origin ∈ o.visitedBy sorted, ∀ pattern ∈ o.getPatterns, keyRead origin pattern = some o.storeKey →
          (getSortValue d origin pattern).getD [] = [] := by
  have hnil : w = [] ↔ o.visitedBy sorted = [] := by
    rw [← hw, ← List.length_eq_zero_iff, length_flatMap_projections, Nat.mul_eq_zero, List.length_eq_zero_iff,
      List.length_eq_zero_iff, or_iff_right (getPatterns_ne_nil o)]
  by_cases hempty : sorted = []
  · rw [if_pos hempty, if_pos (hnil.mpr (by rw [hempty, visitedBy_nil])), hempty, visitedBy_nil]
    exact iff_of_true rfl ⟨.inl rfl, fun origin h => absurd h List.not_mem_nil⟩
  · rw [if_neg hempty, or_iff_right hempty]
    by_cases hvisited : o.visitedBy sorted = []
    · -- an empty list is left under the destination
      rw [if_pos (hnil.mpr hvisited)]
      refine iff_of_false (fun h => ?_) fun h => h.1 hvisited
      have hlookup := congrArg (Finmap.lookup o.storeKey) h
      rw [Finmap.lookup_insert, Finmap.lookup_erase] at hlookup
      cases hlookup
    · have htexts : (o.visitedBy sorted).flatMap (storedTexts d o.storeKey o.getPatterns) = w.map valueText ↔
          ∀ origin ∈ o.visitedBy sorted, storedTexts d o.storeKey o.getPatterns origin =
            (projections d o.getPatterns origin).map valueText := by
        rw [← hw, List.map_flatMap]
        exact flatMap_eq_iff (fun origin => by simp [storedTexts, projections]) _
      rw [if_neg (fun h => hvisited (hnil.mp h)), and_iff_right hvisited]
      simp only [← storedTexts_eq_iff]
      rw [← htexts]
      refine ⟨fun h => ?_, fun h => by rw [h]⟩
      have hlookup := congrArg (Finmap.lookup o.storeKey) h
      rw [Finmap.lookup_insert, Finmap.lookup_insert] at hlookup
      exact Key.list.inj (Option.some.inj hlookup)

end

/-- **`SORT ... STORE` stores what `SORT` returns** exactly if the result is not lost to the destination being erased
before it is read, or to an empty range. -/
theorem sort_stores_iff (S : StdSort) (rand : Nat) {d : Data} {k : Bytes} {u v w : Segment} {o : SortOptions}
    (hparse : parseSortOptions v {} = .ok o) (hstore : o.store = true)
    (hwithout : parseSortOptions u {} = .ok { o with store := false, storeKey := [] })
    (hplain : (exec (call S rand (.string (lit "SORT") :: .string k :: u)) d).1 = .ok (.vector w)) :
    exec (call S rand (.string (lit "SORT") :: .string k :: v)) d =
        (.ok (.vector []), if w = [] then d.erase o.storeKey else d.insert o.storeKey (.list (w.map valueText))) ↔
      o.StoresResult S d k := by
  obtain ⟨xs, sorted, hsource, hsort⟩ := exists_sorted hwithout fun e he => by cases he.symm.trans hplain
  have hperm := S.perm hsort
  have hvector : exec (call S rand (.string (lit "SORT") :: .string k :: u)) d = _ :=
    exec_sort_plain hsource hwithout rfl hsort
  split_ifs at hvector with hstart
  · rw [hvector] at hplain
    have hstored : exec (call S rand (.string (lit "SORT") :: .string k :: v)) d = _ :=
      exec_sort_stored hsource hparse hstore hsort hstart
    have hxs : sorted = [] ↔ xs = [] := ⟨fun h => (h ▸ hperm).nil_eq.symm, fun h => (h ▸ hperm).eq_nil⟩
    rw [hstored, Prod.mk.injEq, and_iff_right rfl, stored_eq_iff o d sorted (Value.vector.inj (Except.ok.inj hplain)),
      o.storesResult_iff hsource hsort, ← hperm.length_eq, hxs, Ne, o.visitedBy_eq_nil_iff hstart, not_or, not_le,
      Nat.pos_iff_ne_zero]
  · rw [hvector] at hplain
    cases hplain

theorem sort_stores_numbers :
    exec (call .insertion 0 [.string (lit "SORT"), .string (lit "k"), .string (lit "STORE"), .string (lit "r")])
      threeNumbers = (.ok (.vector []), threeNumbers.insert (lit "r") (.list [lit "2", lit "3", lit "10"])) :=
  (sort_stores_iff .insertion 0 (v := [.string (lit "STORE"), .string (lit "r")]) (u := [])
    (w := [.string (lit "2"), .string (lit "3"), .string (lit "10")]) (d := threeNumbers) rfl rfl rfl rfl).mpr
    ((SortOptions.storesResult_iff _ rfl (show _ = Except.ok [lit "2", lit "3", lit "10"] from rfl)).mpr (by decide))

def listAndString : Data := ((∅ : Data).insert (lit "k") (.list [lit "1"])).insert (lit "s") (.string (lit "x"))

/-- The string that a pattern asks for is gone when it is also the destination, and an empty range leaves an empty list. -/
theorem sort_stores_other :
    ((exec (call .insertion 0 [.string (lit "SORT"), .string (lit "k"), .string (lit "GET"), .string (lit "s")])
          listAndString).1 = .ok (.vector [.string (lit "x")]) ∧
        (exec (call .insertion 0 [.string (lit "SORT"), .string (lit "k"), .string (lit "GET"), .string (lit "s"),
          .string (lit "STORE"), .string (lit "s")]) listAndString).2.lookup (lit "s") = some (.list [[]])) ∧
      (exec (call .insertion 0 [.string (lit "SORT"), .string (lit "k"), .string (lit "LIMIT"), .integer 0,
          .integer 0]) listAndString).1 = .ok (.vector []) ∧
        (exec (call .insertion 0 [.string (lit "SORT"), .string (lit "k"), .string (lit "LIMIT"), .integer 0, .integer 0,
          .string (lit "STORE"), .string (lit "r")]) listAndString).2.lookup (lit "r") = some (.list []) :=
  ⟨⟨rfl, rfl⟩, rfl, rfl⟩

end Afl.Net.Redis
