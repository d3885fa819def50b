import Afl.Net.Redis.Keys

/-!
# Set operations and `SORT`

`executeSetOperation`, `getSortValue`, the predicate `Sorter` and `executeSortOperation`.

`std::sort` leaves open which comparisons it makes and how it orders equivalent elements, so it is a
parameter: any function that keeps the documented contract (`StdSort`).
-/

namespace Afl.Net.Redis

open Exec

/-! ### Set operations -/

inductive SetOperation
  | difference
  | intersection
  | union

/-- The `switch` of `executeSetOperation`: combine `out` with the next operand. -/
def SetOperation.apply : SetOperation → Finset Bytes → Finset Bytes → Finset Bytes
  | difference, out, set => out.filter (· ∉ set)
  | intersection, out, set => out.filter (· ∈ set)
  | union, out, set => out ∪ set

/-- The operand named `key`: a missing key is the empty set. -/
def getOperand (key : Bytes) : Db (Finset Bytes) := do
  match ← get KeyClass.set.dynamicCast key with
  | some set => pure set
  | none => pure ∅

def executeSetOperation (op : SetOperation) (v : Segment) : Db (Finset Bytes) := do
  let (key, v) ← eatString v []
  let out ← getOperand key
  eatEach (fun key out => do
    let set ← getOperand key
    pure (op.apply out set)) v key out

/-! ### Sort values -/

/-- `pattern.replace(pattern.find('*'), 1, originValue)`, if there is a `*`. -/
def replaceStar (pattern originValue : Bytes) : Bytes :=
  if 42 ∈ pattern then
    pattern.takeWhile (· ≠ 42) ++ originValue ++ (pattern.dropWhile (· ≠ 42)).tail
  else pattern

/-- The parts before and after the first `->`. -/
def splitArrow : Bytes → Option (Bytes × Bytes)
  | [] => none
  | 45 :: 62 :: rest => some ([], rest)
  | c :: rest => (splitArrow rest).map fun p => (c :: p.1, p.2)

/-- `getSortValue`; `none` where the code returns false. -/
def getSortValue (m_data : Data) (originValue pattern : Bytes) : Option Bytes :=
  if pattern = lit "#" then some originValue
  else
    let pattern := replaceStar pattern originValue
    match splitArrow pattern with
    | some (key, field) =>
      match m_data.lookup key with
      | some (.hash m_hash) => m_hash.lookup field
      | _ => none
    | none =>
      match m_data.lookup pattern with
      | some (.string m_string) => some m_string
      | _ => none

/-- `s == "" || strToInteger(s, i)`, with `i` starting at 0. -/
def sortInteger (s : Bytes) : Option Int32 := if s = [] then some 0 else strToInt32 s

/-- `Sorter::operator()`. -/
def sorter (m_data : Data) (pattern : Bytes) (descending alpha : Bool) (a b : Bytes) :
    Except Exception Bool :=
  let va := (getSortValue m_data a pattern).getD []
  let vb := (getSortValue m_data b pattern).getD []
  let as := if descending then vb else va
  let bs := if descending then va else vb
  if alpha then .ok (decide (strLt as bs))
  else
    match sortInteger as, sortInteger bs with
    | some ai, some bi => .ok (decide (ai < bi))
    | _, _ => .error (remoteError INVALID_TYPE_INT)

/-- `std::sort` with a predicate that may throw: a permutation of its input, or an exception that some
comparison of two input elements threw. -/
structure StdSort where
  sort : (Bytes → Bytes → Except Exception Bool) → List Bytes → Except Exception (List Bytes)
  perm : ∀ {less xs ys}, sort less xs = .ok ys → ys.Perm xs
  throws : ∀ {less xs e}, sort less xs = .error e → ∃ a ∈ xs, ∃ b ∈ xs, less a b = .error e

def insertSorted (less : Bytes → Bytes → Except Exception Bool) (x : Bytes) :
    List Bytes → Except Exception (List Bytes)
  | [] => .ok [x]
  | y :: ys =>
    match less x y with
    | .error e => .error e
    | .ok true => .ok (x :: y :: ys)
    | .ok false =>
      match insertSorted less x ys with
      | .error e => .error e
      | .ok zs => .ok (y :: zs)

def insertionSort (less : Bytes → Bytes → Except Exception Bool) : List Bytes → Except Exception (List Bytes)
  | [] => .ok []
  | x :: xs =>
    match insertionSort less xs with
    | .error e => .error e
    | .ok ys => insertSorted less x ys

variable {less : Bytes → Bytes → Except Exception Bool}

theorem insertSorted_perm {x : Bytes} {ys zs : List Bytes}
    (h : insertSorted less x ys = .ok zs) : zs.Perm (x :: ys) := by
  fun_induction insertSorted less x ys generalizing zs with
  | case1 => cases h; exact .refl _
  | case2 => cases h
  | case3 => cases h; exact .refl _
  | case4 => cases h
  | case5 y ys hless zs' hrest ih =>
    cases h
    exact ((ih hrest).cons y).trans (.swap x y ys)

theorem insertSorted_throws {x : Bytes} {ys : List Bytes}
    {e : Exception} (h : insertSorted less x ys = .error e) : ∃ b ∈ ys, less x b = .error e := by
  fun_induction insertSorted less x ys with
  | case1 => cases h
  | case2 y ys e' hless =>
    cases h
    exact ⟨y, by simp, hless⟩
  | case3 => cases h
  | case4 y ys hless e' hrest ih =>
    cases h
    obtain ⟨b, hb, hthrow⟩ := ih hrest
    exact ⟨b, List.mem_cons_of_mem _ hb, hthrow⟩
  | case5 => cases h

theorem insertionSort_perm {xs ys : List Bytes} (h : insertionSort less xs = .ok ys) : ys.Perm xs := by
  fun_induction insertionSort less xs generalizing ys with
  | case1 => cases h; exact .refl _
  | case2 => cases h
  | case3 x xs ys' hrest ih => exact (insertSorted_perm h).trans ((ih hrest).cons x)

theorem insertionSort_throws {xs : List Bytes} {e : Exception}
    (h : insertionSort less xs = .error e) : ∃ a ∈ xs, ∃ b ∈ xs, less a b = .error e := by
  fun_induction insertionSort less xs with
  | case1 => cases h
  | case2 x xs e' hrest ih =>
    cases h
    obtain ⟨a, ha, b, hb, hthrow⟩ := ih hrest
    exact ⟨a, List.mem_cons_of_mem _ ha, b, List.mem_cons_of_mem _ hb, hthrow⟩
  | case3 x xs ys hrest ih =>
    obtain ⟨b, hb, hthrow⟩ := insertSorted_throws h
    exact ⟨x, by simp, b, List.mem_cons_of_mem _ ((insertionSort_perm hrest).mem_iff.mp hb), hthrow⟩

def StdSort.insertion : StdSort where
  sort := insertionSort
  perm := insertionSort_perm
  throws := insertionSort_throws

/-! ### `executeSortOperation` -/

/-- The parameters of `SORT`. -/
structure SortOptions where
  pattern : Bytes := lit "#"
  get : List Bytes := []
  limit : Bool := false
  offset : Int32 := 0
  count : Int32 := 0
  descending : Bool := false
  alpha : Bool := false
  store : Bool := false
  storeKey : Bytes := []

/-- The loop `while (v.size() > 0)` that reads the options. -/
def parseSortOptions : Segment → SortOptions → Except Exception SortOptions
  | [], o => .ok o
  | x :: v, o =>
    match x.eatString [] with
    | .error e => .error e
    | .ok flag =>
      let flag := strUCase flag
      if flag = lit "BY" then
        match v with
        | [] => .error (remoteError INVALID_PARAMETER_COUNT)
        | p :: v =>
          match p.eatString o.pattern with
          | .error e => .error e
          | .ok pattern => parseSortOptions v { o with pattern }
      else if flag = lit "LIMIT" then
        match v with
        | p :: q :: v =>
          match p.eatInteger o.offset with
          | .error e => .error e
          | .ok offset =>
            match q.eatInteger o.count with
            | .error e => .error e
            | .ok count => parseSortOptions v { o with offset, count, limit := true }
        | _ => .error (remoteError INVALID_PARAMETER_COUNT)
      else if flag = lit "GET" then
        match v with
        | [] => .error (remoteError INVALID_PARAMETER_COUNT)
        | p :: v =>
          match p.eatString [] with
          | .error e => .error e
          | .ok n => parseSortOptions v { o with get := o.get ++ [n] }
      else if flag = lit "ASC" then parseSortOptions v { o with descending := false }
      else if flag = lit "DESC" then parseSortOptions v { o with descending := true }
      else if flag = lit "ALPHA" then parseSortOptions v { o with alpha := true }
      else if flag = lit "STORE" then
        match v with
        | [] => .error (remoteError INVALID_PARAMETER_COUNT)
        | p :: v =>
          match p.eatString o.storeKey with
          | .error e => .error e
          | .ok storeKey => parseSortOptions v { o with storeKey, store := true }
      else .error (remoteError INVALID_OPTION)

namespace SortOptions

/-- `if (get.empty()) get.push_back("#")`. -/
def getPatterns (o : SortOptions) : List Bytes := if o.get = [] then [lit "#"] else o.get

def first (o : SortOptions) : Int := if o.limit then o.offset.toInt else 0

def rounds (o : SortOptions) (size : Nat) : Nat :=
  if o.limit then o.count.toInt.toNat else (int32OfSize size).toInt.toNat

end SortOptions

/-- `originValues[static_cast<size_t>(i)]`, undefined outside the vector. -/
def vectorAt (xs : List Bytes) (i : Int) : Db Bytes :=
  if i < 0 then throw .undefined
  else
    match xs[i.toNat]? with
    | none => throw .undefined
    | some x => pure x

/-- The inner loop of the storing branch: one element for each `GET` pattern, pushed to the list `lk`
that is stored under `storeKey`. -/
def storeValues (storeKey origin : Bytes) : List Bytes → List Bytes → Db (List Bytes)
  | [], lk => pure lk
  | pattern :: get, lk => do
    let m_data ← MonadState.get
    let lk := lk ++ [(getSortValue m_data origin pattern).getD []]
    store .list storeKey lk
    storeValues storeKey origin get lk

def storeLoop (storeKey : Bytes) (get originValues : List Bytes) :
    Nat → Int → List Bytes → Db Unit
  | 0, _, _ => pure ()
  | count + 1, i, lk =>
    if i < (int32OfSize originValues.length).toInt then do
      let origin ← vectorAt originValues i
      let lk ← storeValues storeKey origin get lk
      storeLoop storeKey get originValues count (i + 1) lk
    else pure ()

def outputLoop (get originValues : List Bytes) : Nat → Int → Segment → Db Segment
  | 0, _, out => pure out
  | count + 1, i, out =>
    if i < (int32OfSize originValues.length).toInt then do
      let origin ← vectorAt originValues i
      let m_data ← MonadState.get
      outputLoop get originValues count (i + 1) (out ++ get.map fun pattern =>
        match getSortValue m_data origin pattern with
        | some tmp => .string tmp
        | none => .null)
    else pure out

/-- The storing branch of `executeSortOperation`. -/
def sortStore (o : SortOptions) (originValues : List Bytes) : Db Segment := do
  erase o.storeKey
  if originValues ≠ [] then do
    let lk ← getCreate .list o.storeKey
    storeLoop o.storeKey o.getPatterns originValues (o.rounds originValues.length) o.first lk
    pure []
  else pure []

/-- `executeSortOperation`; `key` holds what `key->getValues` produces. -/
def executeSortOperation (S : StdSort) (key : Option (List Bytes)) (v : Segment) : Db Segment := do
  let o ← liftE (parseSortOptions v {})
  let m_data ← MonadState.get
  let originValues ← liftE (S.sort (sorter m_data o.pattern o.descending o.alpha) (key.getD []))
  if o.store then sortStore o originValues
  else
    outputLoop o.getPatterns originValues (o.rounds originValues.length) o.first []

end Afl.Net.Redis
