import Afl.Net.Redis.Sort

/-!
# The commands of `InternalDatabase`

`InternalDatabase::execute`, one definition for each branch of its dispatch, and `InternalDatabase::call`.
The branch for the verb `XYZ` is `execXyz`; it takes the view of the remaining arguments.
-/

namespace Afl.Net.Redis

open Exec

/-- `if (empty) m_data.erase(keyArg)`. -/
def eraseIf (empty : Prop) [Decidable empty] (keyArg : Bytes) : Db Unit :=
  if empty then erase keyArg else pure ()

/-- `if ((v.size() % 2) != parity) fail(INVALID_PARAMETER_COUNT)`. -/
def checkParity (v : Segment) (parity : Nat) : Db Unit :=
  if v.length % 2 ≠ parity then fail INVALID_PARAMETER_COUNT else pure ()

/-! ### Strings -/

/-- `int32_t intVal = 0; if (!s.empty() && !strToInteger(s, intVal)) fail(INVALID_TYPE_INT)`. -/
def storedInteger (s : Bytes) : Db Int32 :=
  if s = [] then pure 0
  else
    match strToInt32 s with
    | none => fail INVALID_TYPE_INT
    | some intVal => pure intVal

/-- `String::modify`, applied to `getCreate<String>(keyArg)`. -/
def modifyString (keyArg : Bytes) (delta : Int32) : Db Value := do
  let m_string ← getCreate .string keyArg
  let intVal ← storedInteger m_string
  let intVal ← checked (intVal.toInt + delta.toInt)
  store .string keyArg (decimal intVal.toInt)
  pure (.integer intVal)

def execAppend (v : Segment) : Db Value := do
  checkArgumentCount v 2
  let (keyArg, v) ← eatString v []
  let (stringArg, _) ← eatString v []
  let m_string ← getCreate .string keyArg
  store .string keyArg (m_string ++ stringArg)
  pure (.integer (int32OfSize (m_string ++ stringArg).length))

def execDecr (v : Segment) : Db Value := do
  checkArgumentCount v 1
  let (keyArg, _) ← eatString v []
  modifyString keyArg (-1)

def execDecrby (v : Segment) : Db Value := do
  checkArgumentCount v 2
  let (keyArg, v) ← eatString v []
  let (intArg, _) ← eatInteger v 0
  let delta ← checked (-intArg.toInt)
  modifyString keyArg delta

def execIncr (v : Segment) : Db Value := do
  checkArgumentCount v 1
  let (keyArg, _) ← eatString v []
  modifyString keyArg 1

def execIncrby (v : Segment) : Db Value := do
  checkArgumentCount v 2
  let (keyArg, v) ← eatString v []
  let (intArg, _) ← eatInteger v 0
  modifyString keyArg intArg

def execGet (v : Segment) : Db Value := do
  checkArgumentCount v 1
  let (keyArg, _) ← eatString v []
  match ← get KeyClass.string.dynamicCast keyArg with
  | some m_string => pure (.string m_string)
  | none => pure .null

/-- `if (i < 0) i += int32_t(sk->m_string.size())`. -/
def fromEnd (m_string : Bytes) (i : Int32) : Db Int32 :=
  if i < 0 then checked (i.toInt + (int32OfSize m_string.length).toInt) else pure i

def execGetrange (v : Segment) : Db Value := do
  checkArgumentCount v 3
  let (keyArg, v) ← eatString v []
  let (beg, v) ← eatInteger v 0
  let (last, _) ← eatInteger v 0
  match ← get KeyClass.string.dynamicCast keyArg with
  | some m_string => do
    let beg ← fromEnd m_string beg
    let last ← fromEnd m_string last
    let beg := if beg < 0 then 0 else beg
    let last := if last < 0 then 0 else last
    let last ← checked (last.toInt + 1)
    pure (.string
      (if last ≤ beg ∨ int32OfSize m_string.length ≤ beg then []
      else (m_string.drop beg.toInt.toNat).take (last.toInt - beg.toInt).toNat))
  | none => pure .null

def execGetset (v : Segment) : Db Value := do
  checkArgumentCount v 2
  let (keyArg, v) ← eatString v []
  let (stringArg, _) ← eatString v []
  let old ← get KeyClass.string.dynamicCast keyArg
  let _ ← getCreate .string keyArg
  store .string keyArg stringArg
  pure (match old with
    | some m_string => .string m_string
    | none => .null)

/-- `m_data.erase(keyArg); getCreate<String>(keyArg).m_string = stringArg`. -/
def assign (keyArg stringArg : Bytes) : Db Unit := do
  erase keyArg
  let _ ← getCreate .string keyArg
  store .string keyArg stringArg

def execSet (v : Segment) : Db Value := do
  checkArgumentCount v 2
  let (keyArg, v) ← eatString v []
  let (stringArg, _) ← eatString v []
  assign keyArg stringArg
  pure (.string (lit "OK"))

def execMset (v : Segment) : Db Value := do
  checkParity v 0
  eatEachPair assign v [] []
  pure (.string (lit "OK"))

def execSetnx (v : Segment) : Db Value := do
  checkArgumentCount v 2
  let (keyArg, v) ← eatString v []
  let (stringArg, _) ← eatString v []
  match ← get KeyClass.string.dynamicCast keyArg with
  | some _ => pure (.integer 0)
  | none => do
    store .string keyArg stringArg
    pure (.integer 1)

def execStrlen (v : Segment) : Db Value := do
  checkArgumentCount v 1
  let (keyArg, _) ← eatString v []
  match ← get KeyClass.string.dynamicCast keyArg with
  | some m_string => pure (.integer (int32OfSize m_string.length))
  | none => pure (.integer 0)

/-! ### Keys -/

/-- One round of the loop of `DEL`, with the number of erased keys. -/
def delRound (keyArg : Bytes) (n : Nat) : Db Nat := do
  let m_data ← MonadState.get
  match m_data.lookup keyArg with
  | some _ => do
    erase keyArg
    pure (n + 1)
  | none => pure n

def execDel (v : Segment) : Db Value := do
  let n ← eatEach delRound v [] 0
  pure (.integer (int32OfSize n))

def execExists (v : Segment) : Db Value := do
  let n ← eatEach (fun keyArg (n : Nat) => do
    let m_data ← MonadState.get
    pure (if m_data.lookup keyArg = none then n else n + 1)) v [] 0
  pure (.integer (int32OfSize n))

/-- `matchKey`: at most one `*` in the pattern. -/
def matchKey (pat key : Bytes) : Bool :=
  if 42 ∈ pat then
    let n := (pat.takeWhile (· ≠ 42)).length
    let endLength := pat.length - n - 1
    decide (pat.length - 1 ≤ key.length) && pat.take n == key.take n &&
      pat.drop (pat.length - endLength) == key.drop (key.length - endLength)
  else pat == key

def execKeys (v : Segment) : Db Value := do
  checkArgumentCount v 1
  let (keyArg, _) ← eatString v []
  let m_data ← MonadState.get
  pure (.vector (((setElements m_data.keys).filter (matchKey keyArg)).map .string))

def execRename (v : Segment) : Db Value := do
  checkArgumentCount v 2
  let (keyArg, v) ← eatString v []
  let (stringArg, _) ← eatString v []
  let m_data ← MonadState.get
  match m_data.lookup keyArg with
  | none => fail KEY_NOT_FOUND
  | some k => do
    modify fun m_data => (m_data.erase keyArg).insert stringArg k
    pure (.string (lit "OK"))

def execRenamenx (v : Segment) : Db Value := do
  checkArgumentCount v 2
  let (keyArg, v) ← eatString v []
  let (stringArg, _) ← eatString v []
  let m_data ← MonadState.get
  match m_data.lookup keyArg with
  | none => fail KEY_NOT_FOUND
  | some k =>
    match m_data.lookup stringArg with
    | none => do
      modify fun m_data => (m_data.erase keyArg).insert stringArg k
      pure (.integer 1)
    | some _ => pure (.integer 0)

def execType (v : Segment) : Db Value := do
  checkArgumentCount v 1
  let (keyArg, _) ← eatString v []
  match ← get some keyArg with
  | none => pure (.string (lit "none"))
  | some k => pure (.string k.getType)

def execPing : Db Value := pure (.string (lit "PONG"))

/-! ### Hashes -/

/-- The order in which a `std::map` is iterated. -/
def hashEntries (m_hash : Finmap fun _ : Bytes => Bytes) : List (Bytes × Bytes) :=
  (setElements m_hash.keys).map fun field => (field, (m_hash.lookup field).getD [])

/-- One round of the loop of `HDEL`, with the hash and the number of erased fields. -/
def hdelRound (keyArg fieldArg : Bytes) (acc : (Finmap fun _ : Bytes => Bytes) × Nat) :
    Db ((Finmap fun _ : Bytes => Bytes) × Nat) :=
  match acc.1.lookup fieldArg with
  | some _ => do
    store .hash keyArg (acc.1.erase fieldArg)
    pure (acc.1.erase fieldArg, acc.2 + 1)
  | none => pure acc

def execHdel (v : Segment) : Db Value := do
  checkArgumentCountAtLeast v 1
  let (keyArg, v) ← eatString v []
  match ← get KeyClass.hash.dynamicCast keyArg with
  | some m_hash => do
    let (m_hash, n) ← eatEach (hdelRound keyArg) v [] (m_hash, 0)
    eraseIf (m_hash = ∅) keyArg
    pure (.integer (int32OfSize n))
  | none => pure (.integer 0)

/-- The loop reads the fields into `keyArg`, so a null field stands for the name of the key. -/
def execHexists (v : Segment) : Db Value := do
  checkArgumentCountAtLeast v 1
  let (keyArg, v) ← eatString v []
  match ← get KeyClass.hash.dynamicCast keyArg with
  | some m_hash => do
    let n ← eatEach (fun keyArg (n : Nat) =>
      pure (if m_hash.lookup keyArg = none then n else n + 1)) v keyArg 0
    pure (.integer (int32OfSize n))
  | none => pure (.integer 0)

def execHget (v : Segment) : Db Value := do
  checkArgumentCount v 2
  let (keyArg, v) ← eatString v []
  let (fieldArg, _) ← eatString v []
  match ← get KeyClass.hash.dynamicCast keyArg with
  | some m_hash =>
    match m_hash.lookup fieldArg with
    | some s => pure (.string s)
    | none => pure .null
  | none => pure .null

/-- The shared shape of `HGETALL` and `HKEYS`: list what `entry` makes of each entry. -/
def listHash (entry : Bytes × Bytes → Segment) (v : Segment) : Db Value := do
  checkArgumentCount v 1
  let (keyArg, _) ← eatString v []
  match ← get KeyClass.hash.dynamicCast keyArg with
  | some m_hash => pure (.vector ((hashEntries m_hash).flatMap entry))
  | none => pure (.vector [])

def execHgetall (v : Segment) : Db Value := listHash (fun e => [.string e.1, .string e.2]) v

def execHkeys (v : Segment) : Db Value := listHash (fun e => [.string e.1]) v

def execHincrby (v : Segment) : Db Value := do
  checkArgumentCount v 3
  let (keyArg, v) ← eatString v []
  let (fieldArg, v) ← eatString v []
  let (intArg, _) ← eatInteger v 0
  let m_hash ← getCreate .hash keyArg
  -- `hk.m_hash[fieldArg]` creates a missing field with an empty value.
  let stringVal := (m_hash.lookup fieldArg).getD []
  let m_hash := m_hash.insert fieldArg stringVal
  store .hash keyArg m_hash
  let intVal ← storedInteger stringVal
  let intVal ← checked (intVal.toInt + intArg.toInt)
  store .hash keyArg (m_hash.insert fieldArg (decimal intVal.toInt))
  pure (.integer intVal)

def execHlen (v : Segment) : Db Value := do
  checkArgumentCount v 1
  let (keyArg, _) ← eatString v []
  match ← get KeyClass.hash.dynamicCast keyArg with
  | some m_hash => pure (.integer (int32OfSize m_hash.keys.card))
  | none => pure (.integer 0)

def execHmget (v : Segment) : Db Value := do
  checkArgumentCountAtLeast v 1
  let (keyArg, v) ← eatString v []
  match ← get KeyClass.hash.dynamicCast keyArg with
  | some m_hash => do
    let result ← eatEach (fun fieldArg (result : Segment) =>
      pure (result ++ [match m_hash.lookup fieldArg with
        | some s => .string s
        | none => .null])) v [] []
    pure (.vector result)
  | none => pure (.vector [])

/-- `hk.m_hash[fieldArg] = stringArg`, where `hk` is the hash stored under `keyArg`. -/
def assignField (keyArg fieldArg stringArg : Bytes) : Db Unit := do
  let m_hash ← getCreate .hash keyArg
  store .hash keyArg (m_hash.insert fieldArg stringArg)

def execHmset (v : Segment) : Db Value := do
  checkParity v 1
  let (keyArg, v) ← eatString v []
  let _ ← getCreate .hash keyArg
  eatEachPair (assignField keyArg) v [] []
  pure (.string (lit "OK"))

def execHset (v : Segment) : Db Value := do
  checkArgumentCount v 3
  let (keyArg, v) ← eatString v []
  let (fieldArg, v) ← eatString v []
  let (stringArg, _) ← eatString v []
  let m_hash ← getCreate .hash keyArg
  store .hash keyArg (m_hash.insert fieldArg stringArg)
  pure (.integer (if m_hash.lookup fieldArg = none then 1 else 0))

/-! ### Lists -/

def convertIndex (m_list : List Bytes) (n : Int32) : Db Nat :=
  if 0 ≤ n then pure n.toInt.toNat
  else do
    let k ← checked (-n.toInt)
    pure (sizeSub m_list.length k.toInt.toNat)

/-- `List::setByIndex`; `none` where it returns false. -/
def setByIndex (m_list : List Bytes) (index : Nat) (val : Bytes) : Option (List Bytes) :=
  if index < m_list.length then some (m_list.set index val) else none

def execLindex (v : Segment) : Db Value := do
  checkArgumentCount v 2
  let (keyArg, v) ← eatString v []
  let (intArg, _) ← eatInteger v 0
  match ← get KeyClass.list.dynamicCast keyArg with
  | some m_list => do
    let n ← convertIndex m_list intArg
    match m_list[n]? with
    | some result => pure (.string result)
    | none => pure .null
  | none => pure .null

def execLlen (v : Segment) : Db Value := do
  checkArgumentCount v 1
  let (keyArg, _) ← eatString v []
  match ← get KeyClass.list.dynamicCast keyArg with
  | some m_list => pure (.integer (int32OfSize m_list.length))
  | none => pure (.integer 0)

/-- `if (lk->m_list.empty()) m_data.erase(keyArg)` after the list was changed to `m_list`. -/
def storeListOrErase (keyArg : Bytes) (m_list : List Bytes) : Db Unit := do
  store .list keyArg m_list
  eraseIf (m_list = []) keyArg

def execLpop (v : Segment) : Db Value := do
  checkArgumentCount v 1
  let (keyArg, _) ← eatString v []
  match ← get KeyClass.list.dynamicCast keyArg with
  | some (result :: m_list) => do
    storeListOrErase keyArg m_list
    pure (.string result)
  | some [] => pure .null
  | none => pure .null

def execRpop (v : Segment) : Db Value := do
  checkArgumentCount v 1
  let (keyArg, _) ← eatString v []
  match ← get KeyClass.list.dynamicCast keyArg with
  | some m_list =>
    match m_list.getLast? with
    | some result => do
      storeListOrErase keyArg m_list.dropLast
      pure (.string result)
    | none => pure .null
  | none => pure .null

/-- One round of the loops of `LPUSH` and `RPUSH`, with the list. -/
def pushRound (push : List Bytes → Bytes → List Bytes) (keyArg stringArg : Bytes) (m_list : List Bytes) :
    Db (List Bytes) := do
  store .list keyArg (push m_list stringArg)
  pure (push m_list stringArg)

/-- The shared shape of `LPUSH` and `RPUSH`. -/
def pushAll (push : List Bytes → Bytes → List Bytes) (v : Segment) : Db Value := do
  checkArgumentCountAtLeast v 2
  let (keyArg, v) ← eatString v []
  let m_list ← getCreate .list keyArg
  let m_list ← eatEach (pushRound push keyArg) v [] m_list
  pure (.integer (int32OfSize m_list.length))

def execLpush (v : Segment) : Db Value := pushAll (fun m_list s => s :: m_list) v

def execRpush (v : Segment) : Db Value := pushAll (fun m_list s => m_list ++ [s]) v

/-- `while (i <= j && lk->getByIndex(i, stringArg))`, over the elements from position `i`. -/
def lrangeLoop : List Bytes → Nat → Nat → List Bytes
  | [], _, _ => []
  | x :: xs, i, j => if i ≤ j then x :: lrangeLoop xs (i + 1) j else []

def execLrange (v : Segment) : Db Value := do
  checkArgumentCount v 3
  let (keyArg, v) ← eatString v []
  let (beg, v) ← eatInteger v 0
  let (last, _) ← eatInteger v 0
  match ← get KeyClass.list.dynamicCast keyArg with
  | some m_list => do
    let i ← convertIndex m_list beg
    let j ← convertIndex m_list last
    pure (.vector ((lrangeLoop (m_list.drop i) i j).map .string))
  | none => pure (.vector [])

/-- The loop of `LREM` over the elements in the order it visits them, with `step` (`+1` or `-1`) applied to
`intArg` at every removal: the elements kept and the number removed. -/
def lremLoop (stringArg : Bytes) (step : Int) : Int → List Bytes → List Bytes × Nat
  | _, [] => ([], 0)
  | intArg, x :: xs =>
    if x = stringArg then
      if intArg + step = 0 then (xs, 1)
      else
        let r := lremLoop stringArg step (intArg + step) xs
        (r.1, r.2 + 1)
    else
      let r := lremLoop stringArg step intArg xs
      (x :: r.1, r.2)

/-- What `LREM` leaves of a list, and the number of elements it removed. -/
def lrem (stringArg : Bytes) (intArg : Int32) (m_list : List Bytes) : List Bytes × Nat :=
  if intArg < 0 then
    let r := lremLoop stringArg 1 intArg.toInt m_list.reverse
    (r.1.reverse, r.2)
  else lremLoop stringArg (-1) intArg.toInt m_list

def execLrem (v : Segment) : Db Value := do
  checkArgumentCount v 3
  let (keyArg, v) ← eatString v []
  let (intArg, v) ← eatInteger v 0
  let (stringArg, _) ← eatString v []
  match ← get KeyClass.list.dynamicCast keyArg with
  | some m_list => do
    store .list keyArg (lrem stringArg intArg m_list).1
    pure (.integer (int32OfSize (lrem stringArg intArg m_list).2))
  | none => pure (.integer 0)

def execLset (v : Segment) : Db Value := do
  checkArgumentCount v 3
  let (keyArg, v) ← eatString v []
  let (intArg, v) ← eatInteger v 0
  let (stringArg, _) ← eatString v []
  match ← get KeyClass.list.dynamicCast keyArg with
  | some m_list => do
    let index ← convertIndex m_list intArg
    match setByIndex m_list index stringArg with
    | some m_list => do
      store .list keyArg m_list
      pure (.string (lit "OK"))
    | none => fail INVALID_INDEX
  | none => fail INVALID_INDEX

/-- `while (!lk->m_list.empty() && i > 0)` of `LTRIM`: the remaining list and `j`. -/
def ltrimFront : List Bytes → Nat → Nat → List Bytes × Nat
  | _ :: xs, i + 1, j => ltrimFront xs i (j - 1)
  | xs, _, j => (xs, j)

def execLtrim (v : Segment) : Db Value := do
  checkArgumentCount v 3
  let (keyArg, v) ← eatString v []
  let (beg, v) ← eatInteger v 0
  let (last, _) ← eatInteger v 0
  match ← get KeyClass.list.dynamicCast keyArg with
  | some m_list => do
    let i ← convertIndex m_list beg
    let j ← convertIndex m_list last
    let r := ltrimFront m_list i j
    storeListOrErase keyArg (r.1.take ((r.2 + 1) % 2 ^ 64))
    pure (.string (lit "OK"))
  | none => pure (.string (lit "OK"))

def execRpoplpush (v : Segment) : Db Value := do
  checkArgumentCount v 2
  let (keyArg, v) ← eatString v []
  let (stringArg, _) ← eatString v []
  match ← get KeyClass.list.dynamicCast keyArg with
  | some m_list =>
    match m_list.getLast? with
    | some result => do
      let other ← getCreate .list stringArg
      store .list stringArg (result :: other)
      -- `lk` is read again: it may be the list just pushed to.
      match ← get KeyClass.list.dynamicCast keyArg with
      | some m_list => do
        storeListOrErase keyArg m_list.dropLast
        pure (.string result)
      | none => throw .undefined
    | none => pure .null
  | none => pure .null

/-! ### Sets -/

/-- One round of the loop of `SADD`, with the set and the number of new elements. -/
def saddRound (keyArg stringArg : Bytes) (acc : Finset Bytes × Nat) : Db (Finset Bytes × Nat) :=
  if stringArg ∈ acc.1 then pure acc
  else do
    store .set keyArg (insert stringArg acc.1)
    pure (insert stringArg acc.1, acc.2 + 1)

def execSadd (v : Segment) : Db Value := do
  checkArgumentCountAtLeast v 2
  let (keyArg, v) ← eatString v []
  let m_set ← getCreate .set keyArg
  let (_, result) ← eatEach (saddRound keyArg) v [] (m_set, 0)
  pure (.integer (int32OfSize result))

def execScard (v : Segment) : Db Value := do
  checkArgumentCount v 1
  let (keyArg, _) ← eatString v []
  match ← get KeyClass.set.dynamicCast keyArg with
  | some m_set => pure (.integer (int32OfSize m_set.card))
  | none => pure (.integer 0)

/-- The shared shape of `SDIFF`, `SINTER` and `SUNION`. -/
def setQuery (op : SetOperation) (v : Segment) : Db Value := do
  checkArgumentCountAtLeast v 1
  let set ← executeSetOperation op v
  pure (.vector ((setElements set).map .string))

def execSdiff (v : Segment) : Db Value := setQuery .difference v
def execSinter (v : Segment) : Db Value := setQuery .intersection v
def execSunion (v : Segment) : Db Value := setQuery .union v

/-- `if (m_set.empty()) m_data.erase(keyArg)` after the set was changed to `m_set`. -/
def storeSetOrErase (keyArg : Bytes) (m_set : Finset Bytes) : Db Unit := do
  store .set keyArg m_set
  eraseIf (m_set = ∅) keyArg

/-- The shared shape of `SDIFFSTORE`, `SINTERSTORE` and `SUNIONSTORE`. -/
def setStore (op : SetOperation) (v : Segment) : Db Value := do
  checkArgumentCountAtLeast v 2
  let (keyArg, v) ← eatString v []
  let set ← executeSetOperation op v
  let _ ← getCreate .set keyArg
  storeSetOrErase keyArg set
  pure (.integer (int32OfSize set.card))

def execSdiffstore (v : Segment) : Db Value := setStore .difference v
def execSinterstore (v : Segment) : Db Value := setStore .intersection v
def execSunionstore (v : Segment) : Db Value := setStore .union v

def execSismember (v : Segment) : Db Value := do
  checkArgumentCount v 2
  let (keyArg, v) ← eatString v []
  let (stringArg, _) ← eatString v []
  match ← get KeyClass.set.dynamicCast keyArg with
  | some m_set => pure (.integer (if stringArg ∈ m_set then 1 else 0))
  | none => pure (.integer 0)

def execSmembers (v : Segment) : Db Value := do
  checkArgumentCount v 1
  let (keyArg, _) ← eatString v []
  match ← get KeyClass.set.dynamicCast keyArg with
  | some m_set => pure (.vector ((setElements m_set).map .string))
  | none => pure (.vector [])

/-- The branch of `SMOVE` for an element of the set. -/
def moveElement (keyArg dest stringArg : Bytes) (m_set : Finset Bytes) : Db Value := do
  store .set keyArg (m_set.erase stringArg)
  let other ← getCreate .set dest
  store .set dest (insert stringArg other)
  -- `sk` is read again: it may be the set just inserted into.
  match ← get KeyClass.set.dynamicCast keyArg with
  | some m_set => do
    eraseIf (m_set = ∅) keyArg
    pure (.integer 1)
  | none => throw .undefined

def execSmove (v : Segment) : Db Value := do
  checkArgumentCount v 3
  let (keyArg, v) ← eatString v []
  let (dest, v) ← eatString v []
  let (stringArg, _) ← eatString v []
  match ← get KeyClass.set.dynamicCast keyArg with
  | some m_set =>
    if stringArg ∈ m_set then moveElement keyArg dest stringArg m_set else pure (.integer 0)
  | none => pure (.integer 0)

/-- `Set::getRandomElement`, given the value of `std::rand()`. -/
def getRandomElement (rand : Nat) (m_set : Finset Bytes) : Option Bytes :=
  (setElements m_set)[rand % m_set.card]?

/-- The shared branch of `SPOP` (`remove`) and `SRANDMEMBER`. -/
def randomElement (remove : Bool) (rand : Nat) (v : Segment) : Db Value := do
  checkArgumentCount v 1
  let (keyArg, _) ← eatString v []
  match ← get KeyClass.set.dynamicCast keyArg with
  | some m_set =>
    match getRandomElement rand m_set with
    | some result => do
      storeSetOrErase keyArg (if remove then m_set.erase result else m_set)
      pure (.string result)
    | none => pure .null
  | none => pure .null

def execSpop (rand : Nat) (v : Segment) : Db Value := randomElement true rand v
def execSrandmember (rand : Nat) (v : Segment) : Db Value := randomElement false rand v

/-- One round of the loop of `SREM`, with the set and the number of erased elements. -/
def sremRound (keyArg stringArg : Bytes) (acc : Finset Bytes × Nat) : Db (Finset Bytes × Nat) :=
  if stringArg ∈ acc.1 then do
    store .set keyArg (acc.1.erase stringArg)
    pure (acc.1.erase stringArg, acc.2 + 1)
  else pure acc

def execSrem (v : Segment) : Db Value := do
  checkArgumentCountAtLeast v 2
  let (keyArg, v) ← eatString v []
  match ← get KeyClass.set.dynamicCast keyArg with
  | some m_set => do
    let (m_set, result) ← eatEach (sremRound keyArg) v [] (m_set, 0)
    eraseIf (m_set = ∅) keyArg
    pure (.integer (int32OfSize result))
  | none => pure (.integer 0)

def execSort (S : StdSort) (v : Segment) : Db Value := do
  checkArgumentCountAtLeast v 1
  let (keyArg, v) ← eatString v []
  let key ← get sortableValues keyArg
  let result ← executeSortOperation S key v
  pure (.vector result)

/-! ### Dispatch -/

/-- The verbs `execute` knows, in the order it tests them. -/
inductive Verb
  | append | decr | decrby | del | exists_ | get | getrange | getset | hdel | hexists | hget
  | hgetall | hincrby | hkeys | hlen | hmget | hmset | hset | incr | incrby | keys | lindex
  | llen | lpop | lpush | lrange | lrem | lset | ltrim | mset | rename | renamenx | rpop
  | rpoplpush | rpush | sadd | scard | sdiff | sdiffstore | set | setnx | sinter | sinterstore
  | sismember | smembers | smove | sort | spop | srandmember | srem | strlen | sunion
  | sunionstore | type_ | ping
deriving DecidableEq

def Verb.text : Verb → Bytes
  | append => lit "APPEND"
  | decr => lit "DECR"
  | decrby => lit "DECRBY"
  | del => lit "DEL"
  | exists_ => lit "EXISTS"
  | get => lit "GET"
  | getrange => lit "GETRANGE"
  | getset => lit "GETSET"
  | hdel => lit "HDEL"
  | hexists => lit "HEXISTS"
  | hget => lit "HGET"
  | hgetall => lit "HGETALL"
  | hincrby => lit "HINCRBY"
  | hkeys => lit "HKEYS"
  | hlen => lit "HLEN"
  | hmget => lit "HMGET"
  | hmset => lit "HMSET"
  | hset => lit "HSET"
  | incr => lit "INCR"
  | incrby => lit "INCRBY"
  | keys => lit "KEYS"
  | lindex => lit "LINDEX"
  | llen => lit "LLEN"
  | lpop => lit "LPOP"
  | lpush => lit "LPUSH"
  | lrange => lit "LRANGE"
  | lrem => lit "LREM"
  | lset => lit "LSET"
  | ltrim => lit "LTRIM"
  | mset => lit "MSET"
  | rename => lit "RENAME"
  | renamenx => lit "RENAMENX"
  | rpop => lit "RPOP"
  | rpoplpush => lit "RPOPLPUSH"
  | rpush => lit "RPUSH"
  | sadd => lit "SADD"
  | scard => lit "SCARD"
  | sdiff => lit "SDIFF"
  | sdiffstore => lit "SDIFFSTORE"
  | set => lit "SET"
  | setnx => lit "SETNX"
  | sinter => lit "SINTER"
  | sinterstore => lit "SINTERSTORE"
  | sismember => lit "SISMEMBER"
  | smembers => lit "SMEMBERS"
  | smove => lit "SMOVE"
  | sort => lit "SORT"
  | spop => lit "SPOP"
  | srandmember => lit "SRANDMEMBER"
  | srem => lit "SREM"
  | strlen => lit "STRLEN"
  | sunion => lit "SUNION"
  | sunionstore => lit "SUNIONSTORE"
  | type_ => lit "TYPE"
  | ping => lit "PING"

def Verb.all : List Verb :=
  [.append, .decr, .decrby, .del, .exists_, .get, .getrange, .getset, .hdel, .hexists, .hget,
    .hgetall, .hincrby, .hkeys, .hlen, .hmget, .hmset, .hset, .incr, .incrby, .keys, .lindex,
    .llen, .lpop, .lpush, .lrange, .lrem, .lset, .ltrim, .mset, .rename, .renamenx, .rpop,
    .rpoplpush, .rpush, .sadd, .scard, .sdiff, .sdiffstore, .set, .setnx, .sinter, .sinterstore,
    .sismember, .smembers, .smove, .sort, .spop, .srandmember, .srem, .strlen, .sunion,
    .sunionstore, .type_, .ping]

/-- The comparisons `verb == "..."` of `execute`. -/
def Verb.ofText (verb : Bytes) : Option Verb := Verb.all.find? fun v => v.text == verb

/-- The branch of `execute` for a verb. -/
def executeVerb (S : StdSort) (rand : Nat) : Verb → Segment → Db Value
  | .append, v => execAppend v
  | .decr, v => execDecr v
  | .decrby, v => execDecrby v
  | .del, v => execDel v
  | .exists_, v => execExists v
  | .get, v => execGet v
  | .getrange, v => execGetrange v
  | .getset, v => execGetset v
  | .hdel, v => execHdel v
  | .hexists, v => execHexists v
  | .hget, v => execHget v
  | .hgetall, v => execHgetall v
  | .hincrby, v => execHincrby v
  | .hkeys, v => execHkeys v
  | .hlen, v => execHlen v
  | .hmget, v => execHmget v
  | .hmset, v => execHmset v
  | .hset, v => execHset v
  | .incr, v => execIncr v
  | .incrby, v => execIncrby v
  | .keys, v => execKeys v
  | .lindex, v => execLindex v
  | .llen, v => execLlen v
  | .lpop, v => execLpop v
  | .lpush, v => execLpush v
  | .lrange, v => execLrange v
  | .lrem, v => execLrem v
  | .lset, v => execLset v
  | .ltrim, v => execLtrim v
  | .mset, v => execMset v
  | .rename, v => execRename v
  | .renamenx, v => execRenamenx v
  | .rpop, v => execRpop v
  | .rpoplpush, v => execRpoplpush v
  | .rpush, v => execRpush v
  | .sadd, v => execSadd v
  | .scard, v => execScard v
  | .sdiff, v => execSdiff v
  | .sdiffstore, v => execSdiffstore v
  | .set, v => execSet v
  | .setnx, v => execSetnx v
  | .sinter, v => execSinter v
  | .sinterstore, v => execSinterstore v
  | .sismember, v => execSismember v
  | .smembers, v => execSmembers v
  | .smove, v => execSmove v
  | .sort, v => execSort S v
  | .spop, v => execSpop rand v
  | .srandmember, v => execSrandmember rand v
  | .srem, v => execSrem v
  | .strlen, v => execStrlen v
  | .sunion, v => execSunion v
  | .sunionstore, v => execSunionstore v
  | .type_, v => execType v
  | .ping, _ => execPing

def execute (S : StdSort) (rand : Nat) (verb : Bytes) (v : Segment) : Db Value :=
  match Verb.ofText verb with
  | some verb => executeVerb S rand verb v
  | none => fail INVALID_COMMAND

/-- The `catch` of `call`: a `std::runtime_error` is thrown again with the verb in its text. -/
def addVerb (verb : Bytes) : Failure → Failure
  | .thrown e => .thrown (.runtimeError (e.what ++ lit " [verb: " ++ verb ++ lit "]"))
  | .undefined => .undefined

/-- `InternalDatabase::call`; `rand` is the value `std::rand()` would return during the call. -/
def call (S : StdSort) (rand : Nat) (command : Segment) : Db Value :=
  match command with
  | [] => fail MISSING_COMMAND
  | .null :: _ => fail MISSING_COMMAND
  | x :: v => do
    let verb ← liftE (x.eatString [])
    mapError (addVerb (strUCase verb)) (execute S rand (strUCase verb) v)

end Afl.Net.Redis
