import Afl.Net.Redis.Batches

/-!
# Clients of the database

`CommandHandler` turns calls into commands and replies into values. The classes for keys come in two kinds: one for
strings, and one for integers, which the database stores as texts.
-/

namespace Afl.Net.Redis

open Exec

/-! ### `CommandHandler` -/

def callOptionalInt (S : StdSort) (rand : Nat) (command : Segment) : Db (Option Int32) := do
  match ← call S rand command with
  | .null => pure none
  | result => do
    let n ← liftE result.toInteger
    pure (some n)

def callInt (S : StdSort) (rand : Nat) (command : Segment) : Db Int32 := do
  let result ← callOptionalInt S rand command
  pure (result.getD 0)

def callString (S : StdSort) (rand : Nat) (command : Segment) : Db Bytes := do
  let result ← call S rand command
  liftE result.toStr

/-- `callInt`, as a truth value. -/
def callBool (S : StdSort) (rand : Nat) (command : Segment) : Db Bool := do
  let n ← callInt S rand command
  pure (decide (n ≠ 0))

def callVoid (S : StdSort) (rand : Nat) (command : Segment) : Db Unit := do
  let _ ← call S rand command
  pure ()

/-- The elements that the loops of `Access::toStringList` and `Access::toIntegerList` visit. -/
def elements : Value → Except Exception (List Value)
  | .vector elements => .ok elements
  | .error source str => .error (.remoteError source str)
  | _ => .ok []

section

variable {S : StdSort} {rand : Nat} {command : Segment} {d d' : Data}

theorem exec_callInt {result : Value} {n : Int32} (h : exec (call S rand command) d = (.ok result, d'))
    (hn : result.toInteger = .ok n) : exec (callInt S rand command) d = (.ok n, d') := by
  have hoptional : ∃ o, exec (callOptionalInt S rand command) d = (.ok o, d') ∧ o.getD 0 = n := by
    rw [callOptionalInt, exec_bind_ok h]
    cases result with
    | null =>
      cases hn
      exact ⟨none, rfl, rfl⟩
    | _ =>
      dsimp only
      rw [hn]
      exact ⟨some n, rfl, rfl⟩
  obtain ⟨o, ho, rfl⟩ := hoptional
  rw [callInt, exec_bind_ok ho]
  rfl

theorem exec_callBool {n : Int32} (h : exec (call S rand command) d = (.ok (.integer n), d')) :
    exec (callBool S rand command) d = (.ok (decide (n ≠ 0)), d') := by
  rw [callBool, exec_bind_ok (exec_callInt h rfl)]
  rfl

theorem decide_flag (p : Prop) [Decidable p] : decide ((if p then (1 : Int32) else 0) ≠ 0) = decide p := by
  split_ifs with hp
  · rw [decide_eq_true hp]
    rfl
  · rw [decide_eq_false hp]
    rfl

theorem exec_callString {result : Value} {s : Bytes} (h : exec (call S rand command) d = (.ok result, d'))
    (hs : result.toStr = .ok s) : exec (callString S rand command) d = (.ok s, d') := by
  rw [callString, exec_bind_ok h, hs]
  rfl

theorem exec_callVoid {result : Value} (h : exec (call S rand command) d = (.ok result, d')) :
    exec (callVoid S rand command) d = (.ok (), d') := by
  rw [callVoid, exec_bind_ok h]
  rfl

end

/-! ### Strings and integers -/

/-- How a class of keys writes an element into a command, and how it reads one from a reply. -/
structure Codec (α : Type) where
  /-- `pushBackString` or `pushBackInteger`. -/
  push : α → Value
  /-- `Access::toString` or `Access::toInteger`. -/
  read : Value → Except Exception α
  /-- `callString` or `callInt`. -/
  callFor : StdSort → Nat → Segment → Db α
  /-- The element as the database stores it. -/
  text : α → Bytes
  /-- What is read where there is nothing. -/
  absent : α
  eat_push : ∀ a value, (push a).eatString value = .ok (text a)
  read_text : ∀ a, read (.string (text a)) = .ok a
  read_null : read .null = .ok absent
  exec_callFor : ∀ {S rand command d d' result a}, exec (call S rand command) d = (.ok result, d') →
    read result = .ok a → exec (callFor S rand command) d = (.ok a, d')

namespace Codec

/-- `StringSetKey`. -/
def string : Codec Bytes where
  push := .string
  read := Value.toStr
  callFor := callString
  text := id
  absent := []
  eat_push _ _ := rfl
  read_text _ := rfl
  read_null := rfl
  exec_callFor := exec_callString

theorem toInteger_decimal (n : Int32) : (Value.string (decimal n.toInt)).toInteger = .ok n := by
  have hne : decimal n.toInt ≠ [] := by
    intro h
    have hparse := strToInt32_decimal n
    rw [h] at hparse
    cases hparse
  rw [Value.toInteger, if_neg hne, strToInt32_decimal]

/-- `IntegerSetKey`. -/
def integer : Codec Int32 where
  push := .integer
  read := Value.toInteger
  callFor := callInt
  text n := decimal n.toInt
  absent := 0
  eat_push _ _ := rfl
  read_text := toInteger_decimal
  read_null := rfl
  exec_callFor := exec_callInt

variable {α : Type} (C : Codec α)

theorem text_injective : Function.Injective C.text := by
  intro a b h
  have hread := C.read_text a
  rw [h, C.read_text] at hread
  exact (Except.ok.inj hread).symm

def stored : α ↪ Bytes := ⟨C.text, C.text_injective⟩

@[simp] theorem stored_apply (a : α) : C.stored a = C.text a := rfl

/-- `Access::toStringList` or `Access::toIntegerList`: the elements are appended to the list of the caller. -/
def toList (list : List α) (result : Value) : Except Exception (List α) := do
  let elements ← elements result
  elements.foldlM (fun list x => do
    let a ← C.read x
    pure (list ++ [a])) list

theorem toList_vector (list as : List α) :
    C.toList list (.vector ((as.map C.text).map .string)) = .ok (list ++ as) := by
  change ((as.map C.text).map Value.string).foldlM _ list = _
  induction as generalizing list with
  | nil => rw [List.append_nil]; rfl
  | cons a as ih =>
    rw [List.map_cons, List.map_cons, List.foldlM_cons, C.read_text]
    exact (ih (list ++ [a])).trans (by rw [List.append_assoc, List.singleton_append])

/-- `getHandler().call(...)`, with the reply as a list. -/
def callList (S : StdSort) (rand : Nat) (list : List α) (command : Segment) : Db (List α) := do
  let result ← call S rand command
  liftE (C.toList list result)

theorem exec_callList {S : StdSort} {rand : Nat} {command : Segment} {d d' : Data} {as : List α} (list : List α)
    (h : exec (call S rand command) d = (.ok (.vector ((as.map C.text).map .string)), d')) :
    exec (C.callList S rand list command) d = (.ok (list ++ as), d') := by
  rw [callList, exec_bind_ok h, C.toList_vector]
  rfl

end Codec

end Afl.Net.Redis
