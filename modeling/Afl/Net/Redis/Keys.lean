import Afl.Data.Value
import Afl.Lib.Exec
import Afl.Lib.Finmap
import Mathlib.Data.Finset.Sort

/-!
# The stored values of `InternalDatabase`

`afl/net/redis/internaldatabase.cpp`: the value classes (`String`, `Hash`, `List`, `Set`), the map `m_data`, and the
typed lookups `get<T>` and `getCreate<T>`. A reference obtained from `getCreate` is modelled by the name it was obtained
for: writing through it is `store` under that name.

Undefined behaviour (signed overflow, an index outside a vector) is the failure `undefined`. Containers are assumed
shorter than `2^31` elements where the code counts them in an `int32_t`.
-/

namespace Afl.Net.Redis

open Exec

/-- The classes derived from `InternalDatabase::Key`. -/
inductive Key
  | string (m_string : Bytes)
  | hash (m_hash : Finmap fun _ : Bytes => Bytes)
  | list (m_list : List Bytes)
  | set (m_set : Finset Bytes)
deriving DecidableEq

def Key.getType : Key → Bytes
  | string _ => lit "string"
  | hash _ => lit "hash"
  | list _ => lit "list"
  | set _ => lit "set"

/-- `m_data`. -/
abbrev Data := Finmap fun _ : Bytes => Key

/-- How a command ends other than by returning. -/
inductive Failure
  | thrown (e : Exception)
  | undefined
deriving DecidableEq

/-- Code of `InternalDatabase`: it changes `m_data` and may throw at any point. -/
abbrev Db (α : Type) := Exec Data Failure α

/-! ### Errors -/

def MISSING_COMMAND := lit "Missing command"
def INVALID_PARAMETER_COUNT := lit "Invalid number of parameters"
def INVALID_OPTION := lit "Invalid option"
def INVALID_TYPE := lit "Invalid type"
def INVALID_TYPE_INT := lit "Invalid type (expect integer)"
def INVALID_INDEX := lit "Invalid index"
def INVALID_COMMAND := lit "Invalid command"
def KEY_NOT_FOUND := lit "Key not found"
def INTERNAL_DATABASE := lit "<InternalDatabase>"

/-- The exception `fail(msg)` throws. -/
def remoteError (msg : Bytes) : Exception := .remoteError INTERNAL_DATABASE msg

def fail {α : Type} (msg : Bytes) : Db α := throw (.thrown (remoteError msg))

/-- Pass on the outcome of code that does not touch the database. -/
def liftE {α : Type} : Except Exception α → Db α
  | .ok a => pure a
  | .error e => throw (.thrown e)

def checkArgumentCount (v : Segment) (need : Nat) : Db Unit :=
  if v.length ≠ need then fail INVALID_PARAMETER_COUNT else pure ()

def checkArgumentCountAtLeast (v : Segment) (need : Nat) : Db Unit :=
  if v.length < need then fail INVALID_PARAMETER_COUNT else pure ()

/-! ### Machine integers -/

/-- `int32_t(size)`. -/
def int32OfSize (n : Nat) : Int32 := Int32.ofInt n

/-- The result of a signed 32-bit operation, undefined if it overflows. -/
def checked (i : Int) : Db Int32 :=
  if -2 ^ 31 ≤ i ∧ i < 2 ^ 31 then pure (Int32.ofInt i) else throw .undefined

/-- Unsigned subtraction of `size_t`. -/
def sizeSub (a b : Nat) : Nat := (a + 2 ^ 64 - b) % 2 ^ 64

/-! ### Reading arguments -/

/-- `v.eat(stringVariable)`: the variable's new value and the remaining view. -/
def eatString (v : Segment) (value : Bytes) : Db (Bytes × Segment) :=
  match v with
  | [] => pure (value, [])
  | x :: v => do
    let value ← liftE (x.eatString value)
    pure (value, v)

/-- `v.eat(int32Variable)`. -/
def eatInteger (v : Segment) (value : Int32) : Db (Int32 × Segment) :=
  match v with
  | [] => pure (value, [])
  | x :: v => do
    let value ← liftE (x.eatInteger value)
    pure (value, v)

/-- `while (v.size() > 0) { v.eat(value); body }`, with the loop's other variables in `acc`. -/
def eatEach {α : Type} (body : Bytes → α → Db α) : Segment → Bytes → α → Db α
  | [], _, acc => pure acc
  | x :: v, value, acc => do
    let value ← liftE (x.eatString value)
    let acc ← body value acc
    eatEach body v value acc

/-- `while (v.size() > 0) { v.eat(field); v.eat(value); body }`. -/
def eatEachPair (body : Bytes → Bytes → Db Unit) : Segment → Bytes → Bytes → Db Unit
  | [], _, _ => pure ()
  | [x], field, value => do
    let field ← liftE (x.eatString field)
    body field value
  | x :: y :: v, field, value => do
    let field ← liftE (x.eatString field)
    let value ← liftE (y.eatString value)
    body field value
    eatEachPair body v field value

/-! ### Typed lookups -/

/-- A value class `T`: `dynamic_cast<T*>`, the object as a `Key`, and `new T()`. -/
structure KeyClass (τ : Type) where
  dynamicCast : Key → Option τ
  toKey : τ → Key
  new : τ
  cast_toKey : ∀ t, dynamicCast (toKey t) = some t
  eq_toKey : ∀ {k t}, dynamicCast k = some t → k = toKey t

def KeyClass.string : KeyClass Bytes where
  dynamicCast | .string s => some s | _ => none
  toKey := .string
  new := []
  cast_toKey _ := rfl
  eq_toKey {k t} h := by cases k <;> simp_all

def KeyClass.hash : KeyClass (Finmap fun _ : Bytes => Bytes) where
  dynamicCast | .hash h => some h | _ => none
  toKey := .hash
  new := ∅
  cast_toKey _ := rfl
  eq_toKey {k t} h := by cases k <;> simp_all

def KeyClass.list : KeyClass (List Bytes) where
  dynamicCast | .list l => some l | _ => none
  toKey := .list
  new := []
  cast_toKey _ := rfl
  eq_toKey {k t} h := by cases k <;> simp_all

def KeyClass.set : KeyClass (Finset Bytes) where
  dynamicCast | .set s => some s | _ => none
  toKey := .set
  new := ∅
  cast_toKey _ := rfl
  eq_toKey {k t} h := by cases k <;> simp_all

/-- The order in which a `std::set` is iterated. -/
def setElements (s : Finset Bytes) : List Bytes := s.sort strLe

/-- `dynamic_cast<Sortable*>` followed by `getValues`. -/
def sortableValues : Key → Option (List Bytes)
  | .list l => some l
  | .set s => some (setElements s)
  | _ => none

def get {τ : Type} (cast : Key → Option τ) (name : Bytes) : Db (Option τ) := do
  let m_data ← MonadState.get
  match m_data.lookup name with
  | none => pure none
  | some k =>
    match cast k with
    | none => fail INVALID_TYPE
    | some t => pure (some t)

/-- Write through the object of class `T` stored under `name`; also `m_data.insertNew(name, ...)`. -/
def store {τ : Type} (T : KeyClass τ) (name : Bytes) (t : τ) : Db Unit :=
  modify fun m_data => m_data.insert name (T.toKey t)

/-- `m_data.erase(name)`. -/
def erase (name : Bytes) : Db Unit := modify fun m_data => m_data.erase name

def getCreate {τ : Type} (T : KeyClass τ) (name : Bytes) : Db τ := do
  match ← get T.dynamicCast name with
  | some t => pure t
  | none => do
    store T name T.new
    pure T.new

end Afl.Net.Redis
