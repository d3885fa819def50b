import Afl.Net.Redis.Commands

/-!
# Set algebra

`SDIFF`, `SINTER` and `SUNION` compute what they are named after, and their `STORE` variants write it to a key. The
destination is obtained by `getCreate<Set>`, so it has to be a set before it is overwritten.
-/

namespace Afl.Net.Redis

open Exec

/-! ### The operations on sets -/

/-- The elements of the difference, intersection or union of a set and further ones. -/
def SetOperation.Member (x : Bytes) (first : Finset Bytes) (rest : List (Finset Bytes)) : SetOperation → Prop
  | difference => x ∈ first ∧ ∀ set ∈ rest, x ∉ set
  | intersection => x ∈ first ∧ ∀ set ∈ rest, x ∈ set
  | union => x ∈ first ∨ ∃ set ∈ rest, x ∈ set

theorem mem_foldl_apply (op : SetOperation) (x : Bytes) (first : Finset Bytes) (rest : List (Finset Bytes)) :
    x ∈ rest.foldl op.apply first ↔ op.Member x first rest := by
  induction rest generalizing first with
  | nil => cases op <;> simp [SetOperation.Member]
  | cons set rest ih =>
    rw [List.foldl_cons, ih]
    cases op <;>
      simp only [SetOperation.Member, SetOperation.apply, Finset.mem_filter, Finset.mem_union, List.forall_mem_cons,
        List.exists_mem_cons_iff, and_assoc, or_assoc]

/-! ### Operands -/

/-- The key is a set or missing. -/
def IsOperand (d : Data) (key : Bytes) : Prop := ∀ k, d.lookup key = some k → ∃ set, k = .set set

/-- A missing key is the empty set. -/
def operand (d : Data) (key : Bytes) : Finset Bytes :=
  match d.lookup key with
  | some (.set set) => set
  | _ => ∅

section

variable {d : Data} {key : Bytes}

theorem exec_getOperand (h : IsOperand d key) : exec (getOperand key) d = (.ok (operand d key), d) := by
  unfold getOperand operand
  cases hk : d.lookup key with
  | none =>
    rw [exec_get_bind_missing hk]
    rfl
  | some k =>
    obtain ⟨set, rfl⟩ := h k hk
    rw [exec_get_bind .set hk]
    rfl

theorem exec_executeSetOperation (op : SetOperation) {keys : List Bytes} (h : ∀ k ∈ key :: keys, IsOperand d k) :
    exec (executeSetOperation op ((key :: keys).map .string)) d =
      (.ok ((keys.map (operand d)).foldl op.apply (operand d key)), d) := by
  have hloop : ∀ (keys : List Bytes) (value : Bytes) (out : Finset Bytes), (∀ k ∈ keys, IsOperand d k) →
      exec (eatEach (fun key out => do
        let set ← getOperand key
        pure (op.apply out set)) (keys.map .string) value out) d =
          (.ok ((keys.map (operand d)).foldl op.apply out), d) := by
    intro keys
    induction keys with
    | nil => exact fun value out _ => rfl
    | cons k keys ih =>
      intro value out h
      obtain ⟨hk, hkeys⟩ := List.forall_mem_cons.mp h
      have hround : exec (do
          let set ← getOperand k
          pure (op.apply out set)) d = (.ok (op.apply out (operand d k)), d) := exec_bind_ok (exec_getOperand hk)
      rw [List.map_cons, eatEach, eatString_string, exec_bind_ok (exec_liftE_ok _ _), exec_bind_ok hround,
        ih k _ hkeys, List.map_cons, List.foldl_cons]
  obtain ⟨hkey, hkeys⟩ := List.forall_mem_cons.mp h
  rw [executeSetOperation, List.map_cons, exec_eatString_bind (eatString_string _ _)]
  dsimp only
  rw [exec_bind_ok (exec_getOperand hkey)]
  exact hloop keys key _ hkeys

end

/-! ### The commands -/

def SetOperation.query : SetOperation → Verb
  | difference => .sdiff
  | intersection => .sinter
  | union => .sunion

def SetOperation.storing : SetOperation → Verb
  | difference => .sdiffstore
  | intersection => .sinterstore
  | union => .sunionstore

theorem executeVerb_query (S : StdSort) (rand : Nat) (op : SetOperation) (v : Segment) :
    executeVerb S rand op.query v = setQuery op v := by
  cases op <;> rfl

theorem executeVerb_storing (S : StdSort) (rand : Nat) (op : SetOperation) (v : Segment) :
    executeVerb S rand op.storing v = setStore op v := by
  cases op <;> rfl

/-- **Set algebra**: the queries return the result for all operands, and the `STORE` variants leave it under the
destination exactly if that was missing or a set. The result is that on the database before the command, so the
destination may be among the operands. -/
theorem set_algebra_iff (S : StdSort) (rand : Nat) (op : SetOperation) {d : Data} {key : Bytes} {keys : List Bytes}
    (hoperands : ∀ k ∈ key :: keys, IsOperand d k) (dest : Bytes) :
    ∃ result : Finset Bytes, (∀ x, x ∈ result ↔ op.Member x (operand d key) (keys.map (operand d))) ∧
      exec (call S rand (.string op.query.text :: (key :: keys).map .string)) d =
        (.ok (.vector ((setElements result).map .string)), d) ∧
      (exec (call S rand (.string op.storing.text :: .string dest :: (key :: keys).map .string)) d =
          (.ok (.integer (int32OfSize result.card)),
            if result = ∅ then d.erase dest else d.insert dest (.set result)) ↔
        IsOperand d dest) := by
  have hexec := exec_executeSetOperation op hoperands
  generalize hresult : (keys.map (operand d)).foldl op.apply (operand d key) = result at hexec
  refine ⟨result, fun x => by rw [← hresult, mem_foldl_apply], ?_, ?_⟩
  · apply exec_call_ok
    rw [executeVerb_query, setQuery, exec_checkArgumentCountAtLeast_bind (by simp)]
    exact exec_bind_ok hexec
  · rw [exec_call_eq_ok_iff, executeVerb_storing, setStore, exec_checkArgumentCountAtLeast_bind (by simp),
      exec_eatString_bind (eatString_string _ _)]
    dsimp only
    rw [exec_bind_ok hexec]
    constructor
    · intro hstored k hk
      cases hcast : KeyClass.set.dynamicCast k with
      | some set => exact ⟨set, KeyClass.set.eq_toKey hcast⟩
      | none =>
        rw [exec_bind_error (exec_getCreate_error hk hcast)] at hstored
        cases hstored
    · intro hdest
      have hcast : ∀ k, d.lookup dest = some k → KeyClass.set.dynamicCast k ≠ none := by
        intro k hk
        obtain ⟨set, rfl⟩ := hdest k hk
        exact Option.some_ne_none set
      obtain ⟨set, hcreate⟩ := exists_exec_getCreate hcast
      rw [exec_bind_ok hcreate, exec_bind_ok (exec_storeSetOrErase _ _ _), writeBack_insert, writeBack_set]
      rfl

/-- Two sets under `a` and `b`. -/
def twoSets : Data := ((∅ : Data).insert (lit "a") (.set {lit "x", lit "y"})).insert (lit "b") (.set {lit "y"})

theorem set_algebra_difference :
    ∃ result : Finset Bytes,
      (∀ x, x ∈ result ↔ SetOperation.difference.Member x {lit "x", lit "y"} [{lit "y"}]) ∧
      exec (call .insertion 0 [.string (lit "SDIFFSTORE"), .string (lit "a"), .string (lit "a"), .string (lit "b")])
          twoSets =
        (.ok (.integer (int32OfSize result.card)),
          if result = ∅ then twoSets.erase (lit "a") else twoSets.insert (lit "a") (.set result)) := by
  have hsets : ∀ k ∈ [lit "a", lit "b"], IsOperand twoSets k := by
    intro key hkey k hk
    rcases List.mem_pair.mp hkey with rfl | rfl <;> cases hk <;> exact ⟨_, rfl⟩
  obtain ⟨result, hmember, -, hstored⟩ := set_algebra_iff .insertion 0 .difference hsets (lit "a")
  exact ⟨result, hmember, hstored.mpr (hsets _ (by simp))⟩

/-- A set under `a` and a string under `s`. -/
def setAndString : Data := ((∅ : Data).insert (lit "a") (.set {lit "x"})).insert (lit "s") (.string [])

/-- The destination is a string: `SDIFFSTORE` throws, and nothing is stored. -/
theorem sdiffstore_over_string :
    ∃ e, exec (call .insertion 0 [.string (lit "SDIFFSTORE"), .string (lit "s"), .string (lit "a")]) setAndString =
      (.error (.thrown e), setAndString) :=
  ⟨_, rfl⟩

end Afl.Net.Redis
