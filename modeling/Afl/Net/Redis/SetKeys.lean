import Afl.Net.Redis.Client
import Afl.Net.Redis.Moves
import Afl.Net.Redis.SetAlgebra

/-!
# Set keys

`StringSetKey` and `IntegerSetKey` make a set of strings or integers of a key. Whatever is called on whichever sets, in
any order, the callers see nothing but sets: the members answer as the operations they stand for, and an empty set
leaves no key behind.
-/

namespace Afl.Net.Redis

open Exec Machine

/-! ### The classes -/

namespace SetKey

variable {α : Type} (C : Codec α) (S : StdSort) (rand : Nat)

def exists_ (name : Bytes) : Db Bool :=
  callBool S rand [.string (lit "EXISTS"), .string name]

def removeKey (name : Bytes) : Db Unit := callVoid S rand [.string (lit "DEL"), .string name]

def size (name : Bytes) : Db Int32 := callInt S rand [.string (lit "SCARD"), .string name]

def empty (name : Bytes) : Db Bool := do
  let n ← size S rand name
  pure (decide (n = 0))

def add (name : Bytes) (value : α) : Db Bool :=
  callBool S rand [.string (lit "SADD"), .string name, C.push value]

def remove (name : Bytes) (value : α) : Db Bool :=
  callBool S rand [.string (lit "SREM"), .string name, C.push value]

def extractRandom (name : Bytes) : Db α := C.callFor S rand [.string (lit "SPOP"), .string name]

def getRandom (name : Bytes) : Db α := C.callFor S rand [.string (lit "SRANDMEMBER"), .string name]

def moveTo (name : Bytes) (value : α) (other : Bytes) : Db Bool :=
  callBool S rand [.string (lit "SMOVE"), .string name, .string other, C.push value]

def contains (name : Bytes) (value : α) : Db Bool :=
  callBool S rand [.string (lit "SISMEMBER"), .string name, C.push value]

def copyTo (name other : Bytes) : Db Unit := callVoid S rand [.string (lit "SINTERSTORE"), .string other, .string name]

def getAll (name : Bytes) (list : List α) : Db (List α) :=
  C.callList S rand list [.string (lit "SMEMBERS"), .string name]

/-- The constructor of `StringSetOperation` and `IntegerSetOperation`: the request. -/
def newOperation (op : Bytes) (a b : Bytes) : Segment := [.string op, .string a, .string b]

def andAlso (m_request : Segment) (x : Bytes) : Segment := m_request ++ [.string x]

/-- `intersect`, `merge` or `remove`, with what is passed to `andAlso` after that. -/
def operation (op : SetOperation) (name other : Bytes) (more : List Bytes) : Segment :=
  more.foldl andAlso (newOperation op.query.text name other)

/-- `getAll` of the operation. -/
def getResult (m_request : Segment) (list : List α) : Db (List α) := C.callList S rand list m_request

def storeTo (m_request : Segment) (other : Bytes) : Db Unit := do
  let op ← liftE (m_request.headD .null).toStr
  callVoid S rand ((m_request.set 0 (.string (op ++ lit "STORE"))).insertIdx 1 (.string other))

end SetKey

/-! ### Sets -/

section

variable {α : Type} [DecidableEq α]

def SetOperation.on (op : SetOperation) (first second : Finset α) : Finset α :=
  match op with
  | difference => first \ second
  | intersection => first ∩ second
  | union => first ∪ second

/-- That of a set and further ones. -/
def SetOperation.combine (op : SetOperation) (first : Finset α) (rest : List (Finset α)) : Finset α :=
  rest.foldl op.on first

/-- A call of a member of a set key. The intersection, union or difference of `name`, `other` and further sets is
built and used at once. -/
inductive SetCall (α : Type)
  | exists_ (name : Bytes)
  | removeKey (name : Bytes)
  | size (name : Bytes)
  | empty (name : Bytes)
  | add (name : Bytes) (value : α)
  | remove (name : Bytes) (value : α)
  | extractRandom (name : Bytes)
  | getRandom (name : Bytes)
  | moveTo (name : Bytes) (value : α) (other : Bytes)
  | contains (name : Bytes) (value : α)
  | copyTo (name other : Bytes)
  | getAll (name : Bytes) (list : List α)
  | combine (op : SetOperation) (name other : Bytes) (more : List Bytes) (list : List α)
  | storeTo (op : SetOperation) (name other : Bytes) (more : List Bytes) (dest : Bytes)

inductive SetAnswer (α : Type)
  | flag (b : Bool)
  | count (n : Int32)
  | element (a : α)
  | elements (list : List α)
  | done

namespace SetCall

def names : SetCall α → List Bytes
  | exists_ name | removeKey name | size name | empty name | add name _ | remove name _ | extractRandom name
  | getRandom name | contains name _ | getAll name _ => [name]
  | moveTo name _ other | copyTo name other => [name, other]
  | combine _ name other more _ => name :: other :: more
  | storeTo _ name other more dest => dest :: name :: other :: more

def run (C : Codec α) (S : StdSort) (rand : Nat) : SetCall α → Db (SetAnswer α)
  | exists_ name => do pure (.flag (← SetKey.exists_ S rand name))
  | removeKey name => do
    SetKey.removeKey S rand name
    pure .done
  | size name => do pure (.count (← SetKey.size S rand name))
  | empty name => do pure (.flag (← SetKey.empty S rand name))
  | add name value => do pure (.flag (← SetKey.add C S rand name value))
  | remove name value => do pure (.flag (← SetKey.remove C S rand name value))
  | extractRandom name => do pure (.element (← SetKey.extractRandom C S rand name))
  | getRandom name => do pure (.element (← SetKey.getRandom C S rand name))
  | moveTo name value other => do pure (.flag (← SetKey.moveTo C S rand name value other))
  | contains name value => do pure (.flag (← SetKey.contains C S rand name value))
  | copyTo name other => do
    SetKey.copyTo S rand name other
    pure .done
  | getAll name list => do pure (.elements (← SetKey.getAll C S rand name list))
  | combine op name other more list => do
    pure (.elements (← SetKey.getResult C S rand (SetKey.operation op name other more) list))
  | storeTo op name other more dest => do
    SetKey.storeTo S rand (SetKey.operation op name other more) dest
    pure .done

/-- The answer lists a set, in the order of the texts, behind what was in the list before. -/
def Lists (C : Codec α) (list : List α) (set : Finset α) (answer : SetAnswer α) : Prop :=
  ∃ as : List α, as.Nodup ∧ (∀ a, a ∈ as ↔ a ∈ set) ∧ (as.map C.text).Pairwise strLe ∧
    answer = .elements (list ++ as)

def Meets (C : Codec α) (st : Bytes → Finset α) : SetCall α → SetAnswer α → (Bytes → Finset α) → Prop
  | exists_ name, answer, st' => answer = .flag (decide (st name ≠ ∅)) ∧ st' = st
  | removeKey name, answer, st' => answer = .done ∧ st' = Function.update st name ∅
  | size name, answer, st' => answer = .count (int32OfSize (st name).card) ∧ st' = st
  | empty name, answer, st' => answer = .flag (decide (int32OfSize (st name).card = 0)) ∧ st' = st
  | add name value, answer, st' =>
    answer = .flag (decide (value ∉ st name)) ∧ st' = Function.update st name (insert value (st name))
  | remove name value, answer, st' =>
    answer = .flag (decide (value ∈ st name)) ∧ st' = Function.update st name ((st name).erase value)
  | extractRandom name, answer, st' =>
    (st name = ∅ ∧ answer = .element C.absent ∧ st' = st) ∨
      ∃ value ∈ st name, answer = .element value ∧ st' = Function.update st name ((st name).erase value)
  | getRandom name, answer, st' =>
    ((st name = ∅ ∧ answer = .element C.absent) ∨ ∃ value ∈ st name, answer = .element value) ∧ st' = st
  | moveTo name value other, answer, st' =>
    answer = .flag (decide (value ∈ st name)) ∧
      st' = if value ∈ st name then
          let taken := Function.update st name ((st name).erase value)
          Function.update taken other (insert value (taken other))
        else st
  | contains name value, answer, st' => answer = .flag (decide (value ∈ st name)) ∧ st' = st
  | copyTo name other, answer, st' => answer = .done ∧ st' = Function.update st other (st name)
  | getAll name list, answer, st' => Lists C list (st name) answer ∧ st' = st
  | combine op name other more list, answer, st' =>
    Lists C list (op.combine (st name) ((other :: more).map st)) answer ∧ st' = st
  | storeTo op name other more dest, answer, st' =>
    answer = .done ∧ st' = Function.update st dest (op.combine (st name) ((other :: more).map st))

end SetCall

/-- The database shows the sets under their names; an empty set is a missing key. -/
def Shows (C : Codec α) (names : Set Bytes) (d : Data) (st : Bytes → Finset α) : Prop :=
  ∀ name ∈ names, d.lookup name =
    if st name = ∅ then none else some (.set ((st name).map C.stored))

/-- The database shows the sets, and nothing happened to other keys. -/
def Leaves (C : Codec α) (names : Set Bytes) (d d' : Data) (st' : Bytes → Finset α) : Prop :=
  Shows C names d' st' ∧ ∀ name ∉ names, d'.lookup name = d.lookup name

end

/-! ### Commands on sets -/

section

variable {S : StdSort} {rand : Nat} {d : Data} {key dest value : Bytes} {m_set : Finset Bytes} {x : Value}

theorem exec_key_bind {α : Type} (f : Bytes × Segment → Db α) :
    exec (checkArgumentCount [.string key] 1 >>= fun _ => eatString [.string key] [] >>= f) d =
      exec (f (key, [])) d :=
  (exec_checkArgumentCount_bind rfl _ d).trans (exec_eatString_bind rfl [] f d)

theorem exec_get_holds (h : Holds .set key d m_set) {f : Option (Finset Bytes) → Db Value} (hf : f none = f (some ∅)) :
    exec (get KeyClass.set.dynamicCast key >>= f) d = exec (f (some m_set)) d := by
  rcases h with h | ⟨h, rfl⟩
  · exact exec_get_bind .set h f
  · rw [exec_get_bind_missing h, hf]
    rfl

theorem exec_exists :
    exec (call S rand [.string (lit "EXISTS"), .string key]) d =
      (.ok (.integer (if d.lookup key ≠ none then 1 else 0)), d) := by
  change exec (call S rand (.string Verb.exists_.text :: _)) d = _
  apply exec_call_ok
  change (Except.ok (Value.integer (int32OfSize (if d.lookup key = none then 0 else 1))), d) = _
  rw [ite_not]
  split_ifs <;> rfl

theorem exec_scard (h : Holds .set key d m_set) :
    exec (call S rand [.string (lit "SCARD"), .string key]) d = (.ok (.integer (int32OfSize m_set.card)), d) := by
  change exec (call S rand (.string Verb.scard.text :: _)) d = _
  apply exec_call_ok
  simp only [executeVerb, execScard, exec_key_bind]
  exact exec_get_holds h rfl

theorem exec_sismember (h : Holds .set key d m_set) (hx : x.eatString [] = .ok value) :
    exec (call S rand [.string (lit "SISMEMBER"), .string key, x]) d =
      (.ok (.integer (if value ∈ m_set then 1 else 0)), d) := by
  change exec (call S rand (.string Verb.sismember.text :: _)) d = _
  apply exec_call_ok
  simp only [executeVerb, execSismember, exec_checkArgumentCount_bind (show [Value.string key, x].length = 2 from rfl),
    exec_eatString_bind (eatString_string _ _), exec_eatString_bind hx]
  exact exec_get_holds h rfl

theorem exec_smembers (h : Holds .set key d m_set) :
    exec (call S rand [.string (lit "SMEMBERS"), .string key]) d =
      (.ok (.vector ((setElements m_set).map .string)), d) := by
  change exec (call S rand (.string Verb.smembers.text :: _)) d = _
  apply exec_call_ok
  simp only [executeVerb, execSmembers, exec_key_bind]
  exact exec_get_holds h (by simp [setElements])

theorem exec_randomElement (remove : Bool) (h : d.lookup key = some (.set m_set)) (hne : m_set.Nonempty) :
    ∃ x ∈ m_set, exec (randomElement remove rand [.string key]) d =
      (.ok (.string x), writeBack d key (.set (if remove then m_set.erase x else m_set))) := by
  have hlt : rand % m_set.card < (setElements m_set).length := by
    rw [setElements, Finset.length_sort]
    exact Nat.mod_lt _ hne.card_pos
  have hchosen : getRandomElement rand m_set = some (setElements m_set)[rand % m_set.card] :=
    List.getElem?_eq_getElem hlt
  refine ⟨_, (Finset.mem_sort strLe).mp (List.getElem_mem hlt), ?_⟩
  simp only [randomElement, exec_key_bind, exec_get_bind .set h, hchosen]
  exact exec_bind_ok (exec_storeSetOrErase _ _ _)

theorem exec_randomElement_missing (remove : Bool) (h : d.lookup key = none) :
    exec (randomElement remove rand [.string key]) d = (.ok .null, d) := by
  simp only [randomElement, exec_key_bind, exec_get_bind_missing h]
  rfl

theorem exec_setStore (op : SetOperation) {keys : List Bytes} (hoperands : ∀ k ∈ key :: keys, IsOperand d k)
    {old : Finset Bytes} (hdest : Holds .set dest d old) :
    exec (call S rand (.string op.storing.text :: .string dest :: (key :: keys).map .string)) d =
      (.ok (.integer (int32OfSize ((keys.map (operand d)).foldl op.apply (operand d key)).card)),
        writeBack d dest (.set ((keys.map (operand d)).foldl op.apply (operand d key)))) := by
  apply exec_call_ok
  rw [executeVerb_storing, setStore, exec_checkArgumentCountAtLeast_bind (by simp)]
  simp only [exec_eatString_bind (eatString_string _ _), exec_bind_ok (exec_executeSetOperation op hoperands),
    exec_bind_ok (exec_getCreate hdest), exec_bind_ok (exec_storeSetOrErase _ _ _), set_toKey, writeBack_insert]
  rfl

theorem exec_setQuery (op : SetOperation) {keys : List Bytes} (hoperands : ∀ k ∈ key :: keys, IsOperand d k) :
    exec (call S rand (.string op.query.text :: (key :: keys).map .string)) d =
      (.ok (.vector ((setElements ((keys.map (operand d)).foldl op.apply (operand d key))).map .string)), d) := by
  apply exec_call_ok
  rw [executeVerb_query, setQuery, exec_checkArgumentCountAtLeast_bind (by simp)]
  exact exec_bind_ok (exec_executeSetOperation op hoperands)

theorem exec_call_element {verb : Verb} (hverb : verb = .sadd ∨ verb = .srem) (hx : x.eatString [] = .ok value) :
    exec (call S rand [.string verb.text, .string key, x]) d =
      exec (call S rand [.string verb.text, .string key, .string value]) d := by
  have hloop : ∀ {τ : Type} (body : Bytes → τ → Db τ) acc,
      eatEach body [x] [] acc = eatEach body [.string value] [] acc := by
    intro τ body acc
    rw [eatEach, eatEach, hx, eatString_string]
  have hcount : ∀ y : Value, checkArgumentCountAtLeast [.string key, y] 2 = pure () := fun y => rfl
  rw [exec_call, exec_call]
  rcases hverb with rfl | rfl <;>
    simp only [executeVerb, execSadd, execSrem, hcount, pure_bind, exec_eatString_bind (eatString_string _ _), hloop]

theorem exec_sadd_element (h : Holds .set key d m_set) (hx : x.eatString [] = .ok value) :
    exec (call S rand [.string (lit "SADD"), .string key, x]) d =
      (.ok (.integer (if value ∉ m_set then 1 else 0)), writeBack d key (.set (insert value m_set))) := by
  have hcall : exec (call S rand _) d = _ := exec_sadd h value []
  have hinhabited : (Key.set (insert value m_set)).Inhabited := Finset.insert_ne_empty value m_set
  refine (exec_call_element (.inl rfl) hx).trans (hcall.trans ?_)
  rw [writeBack, if_pos hinhabited]
  simp only [outputs, after, saddStep, List.sum_cons, List.sum_nil, Nat.add_zero, ite_not]
  split_ifs <;> rfl

theorem exec_srem_element (h : Holds .set key d m_set) (hx : x.eatString [] = .ok value) :
    exec (call S rand [.string (lit "SREM"), .string key, x]) d =
      (.ok (.integer (if value ∈ m_set then 1 else 0)), writeBack d key (.set (m_set.erase value))) := by
  have hcall : exec (call S rand _) d = _ := exec_srem h value []
  refine (exec_call_element (.inr rfl) hx).trans (hcall.trans ?_)
  simp only [outputs, after, sremStep, List.sum_cons, List.sum_nil, Nat.add_zero]
  split_ifs <;> rfl

theorem exec_execSmove (h : Holds .set key d m_set) (hx : x.eatString [] = .ok value) :
    exec (execSmove [.string key, .string dest, x]) d =
      exec (if value ∈ m_set then moveElement key dest value m_set else pure (.integer 0)) d := by
  simp only [execSmove, exec_checkArgumentCount_bind (show [Value.string key, .string dest, x].length = 3 from rfl),
    exec_eatString_bind (eatString_string _ _), exec_eatString_bind hx]
  exact exec_get_holds h (by simp)

theorem exec_smove_still (h : Holds .set key d m_set) (hx : x.eatString [] = .ok value)
    (hstill : value ∈ m_set → key = dest) :
    exec (call S rand [.string (lit "SMOVE"), .string key, .string dest, x]) d =
      (.ok (.integer (if value ∈ m_set then 1 else 0)), d) := by
  change exec (call S rand (.string Verb.smove.text :: _)) d = _
  apply exec_call_ok
  refine (exec_execSmove h hx).trans ?_
  by_cases hmem : value ∈ m_set
  · obtain rfl := hstill hmem
    have hlookup : d.lookup key = some (.set m_set) :=
      h.resolve_right fun hnew => Finset.ne_empty_of_mem hmem hnew.2
    obtain ⟨sk, hsk, -, hexec⟩ := exec_moveElement value
      (show (d.insert key (.set (m_set.erase value))).lookup key = some (.set (m_set.erase value)) ∨ _ from
        .inl (Finmap.lookup_insert d))
    rw [if_pos hmem, if_pos hmem, hexec, hsk rfl, Finset.insert_erase hmem, Finmap.insert_insert, writeBack_insert,
      writeBack_set, if_neg (Finset.ne_empty_of_mem hmem), Finmap.insert_of_lookup hlookup]
  · rw [if_neg hmem, if_neg hmem]
    rfl

theorem exec_smove {t : Finset Bytes} (h : Holds .set key d m_set) (hx : x.eatString [] = .ok value)
    (hmem : value ∈ m_set) (hne : key ≠ dest) (ht : Holds .set dest d t) :
    exec (call S rand [.string (lit "SMOVE"), .string key, .string dest, x]) d =
      (.ok (.integer 1), writeBack (writeBack d dest (.set (insert value t))) key (.set (m_set.erase value))) := by
  have hdest : (d.insert key (.set (m_set.erase value))).lookup dest = d.lookup dest :=
    Finmap.lookup_insert_of_ne _ (Ne.symm hne)
  obtain ⟨sk, -, hsk, hexec⟩ := exec_moveElement value
    (show (d.insert key (.set (m_set.erase value))).lookup dest = some (.set t) ∨ _ by
      rw [hdest]
      exact ht)
  have hinhabited : (Key.set (insert value t)).Inhabited := Finset.insert_ne_empty value t
  change exec (call S rand (.string Verb.smove.text :: _)) d = _
  apply exec_call_ok
  refine (exec_execSmove h hx).trans ?_
  rw [if_pos hmem, hexec, hsk hne, Finmap.insert_insert_of_ne _ hne, writeBack_insert, writeBack.eq_def d dest,
    if_pos hinhabited]

end

/-! ### One call -/

section

variable {α : Type} [DecidableEq α] {C : Codec α} {names : Set Bytes} {d d' : Data} {st st' : Bytes → Finset α}
  {name other : Bytes}

theorem Shows.holds (h : Shows C names d st) (hname : name ∈ names) : Holds .set name d ((st name).map C.stored) := by
  have hlookup := h name hname
  by_cases hempty : st name = ∅
  · rw [if_pos hempty] at hlookup
    exact .inr ⟨hlookup, by rw [hempty]; rfl⟩
  · rw [if_neg hempty] at hlookup
    exact .inl hlookup

theorem Shows.lookup (h : Shows C names d st) (hname : name ∈ names) (hempty : st name ≠ ∅) :
    d.lookup name = some (.set ((st name).map C.stored)) := by rw [h name hname, if_neg hempty]

theorem Shows.operand (h : Shows C names d st) (hname : name ∈ names) :
    IsOperand d name ∧ operand d name = (st name).map C.stored := by
  rw [IsOperand, Redis.operand]
  rcases h.holds hname with hl | ⟨hl, hnew⟩
  · rw [hl]
    exact ⟨fun k hk => ⟨_, (Option.some.inj hk).symm⟩, rfl⟩
  · rw [hl, hnew]
    exact ⟨fun k hk => absurd hk (by simp), rfl⟩

theorem Shows.leaves (h : Shows C names d st) : Leaves C names d d st := ⟨h, fun _ _ => rfl⟩

theorem Leaves.writeBack (h : Leaves C names d d' st) (hname : name ∈ names) (set : Finset α) :
    Leaves C names d (writeBack d' name (.set (set.map C.stored))) (Function.update st name set) := by
  refine ⟨fun n hn => ?_, fun n hn => ?_⟩
  · by_cases hsame : n = name
    · subst hsame
      rw [lookup_writeBack_self, Function.update_self]
      by_cases hempty : set = ∅
      · rw [if_pos hempty, if_neg]
        exact fun hinhabited => hinhabited (by rw [hempty]; rfl)
      · rw [if_neg hempty, if_pos]
        exact fun hnone => hempty (Finset.map_eq_empty.mp hnone)
    · rw [lookup_writeBack_of_ne hsame, Function.update_of_ne hsame]
      exact h.1 n hn
  · have hne : n ≠ name := fun hsame => hn (hsame ▸ hname)
    rw [lookup_writeBack_of_ne hne]
    exact h.2 n hn

omit [DecidableEq α] in
theorem mem_stored {a : α} {set : Finset α} : C.text a ∈ set.map C.stored ↔ a ∈ set := Finset.mem_map' C.stored

theorem insert_stored (a : α) (set : Finset α) :
    insert (C.text a) (set.map C.stored) = (insert a set).map C.stored := (Finset.map_insert C.stored a set).symm

theorem erase_stored (a : α) (set : Finset α) :
    (set.map C.stored).erase (C.text a) = (set.erase a).map C.stored := (Finset.map_erase C.stored set a).symm

theorem foldl_apply_stored (op : SetOperation) (first : Finset α) (rest : List (Finset α)) :
    (rest.map fun set => set.map C.stored).foldl op.apply (first.map C.stored) =
      (op.combine first rest).map C.stored := by
  have hstep : ∀ s t : Finset α, op.apply (s.map C.stored) (t.map C.stored) = (op.on s t).map C.stored := by
    intro s t
    cases op with
    | difference => rw [SetOperation.apply, Finset.filter_notMem_eq_sdiff, ← Finset.map_sdiff, SetOperation.on]
    | intersection => rw [SetOperation.apply, Finset.filter_mem_eq_inter, ← Finset.map_inter, SetOperation.on]
    | union => exact (Finset.map_union _ _).symm
  induction rest generalizing first with
  | nil => rfl
  | cons set rest ih =>
    rw [List.map_cons, List.foldl_cons, hstep, ih]
    rfl

omit [DecidableEq α] in
theorem exists_elements (set : Finset α) (list : List α) :
    ∃ as : List α, setElements (set.map C.stored) = as.map C.text ∧
      SetCall.Lists C list set (.elements (list ++ as)) := by
  have hrange : setElements (set.map C.stored) ∈ Set.range (List.map C.text) := by
    rw [Set.range_list_map]
    intro x hx
    obtain ⟨a, -, rfl⟩ := Finset.mem_map.mp ((Finset.mem_sort strLe).mp hx)
    exact ⟨a, rfl⟩
  obtain ⟨as, has⟩ := hrange
  refine ⟨as, has.symm, as, ?_, fun a => ?_, ?_, rfl⟩
  · apply List.Nodup.of_map C.text
    rw [has]
    exact Finset.sort_nodup _ _
  · calc a ∈ as ↔ C.text a ∈ as.map C.text := (List.mem_map_of_injective C.text_injective).symm
      _ ↔ a ∈ set := by rw [has, setElements, Finset.mem_sort, mem_stored]
  · rw [has]
    exact Finset.pairwise_sort _ _

theorem operation_eq (op : SetOperation) (name other : Bytes) (more : List Bytes) :
    SetKey.operation op name other more = .string op.query.text :: (name :: other :: more).map .string := by
  have hfold : ∀ (more : List Bytes) (m_request : Segment),
      more.foldl SetKey.andAlso m_request = m_request ++ more.map .string := by
    intro more
    induction more with
    | nil => exact fun m_request => (List.append_nil m_request).symm
    | cons x more ih =>
      intro m_request
      rw [List.foldl_cons, ih, SetKey.andAlso, List.append_assoc]
      rfl
  rw [SetKey.operation, hfold]
  rfl

theorem storing_text (op : SetOperation) : op.query.text ++ lit "STORE" = op.storing.text := by
  cases op <;> rfl

theorem Shows.operands (h : Shows C names d st) (op : SetOperation) {keys : List Bytes}
    (hkeys : ∀ n ∈ name :: keys, n ∈ names) :
    (∀ k ∈ name :: keys, IsOperand d k) ∧
      (keys.map (Redis.operand d)).foldl op.apply (Redis.operand d name) =
        (op.combine (st name) (keys.map st)).map C.stored := by
  obtain ⟨hname, hrest⟩ := List.forall_mem_cons.mp hkeys
  have hmap : keys.map (Redis.operand d) = (keys.map st).map fun set => set.map C.stored := by
    rw [List.map_map]
    apply List.map_congr_left
    intro k hk
    exact (h.operand (hrest k hk)).2
  refine ⟨fun k hk => (h.operand (hkeys k hk)).1, ?_⟩
  rw [hmap, (h.operand hname).2, foldl_apply_stored]

end

namespace SetCall

section

variable {α : Type} [DecidableEq α] {C : Codec α} {names : Set Bytes} {d₀ d : Data} {st : Bytes → Finset α}
  {S : StdSort} {rand : Nat}

/-- What a call returns and leaves. -/
def Done (C : Codec α) (names : Set Bytes) (d₀ : Data) (st : Bytes → Finset α) (c : SetCall α)
    (result : Except Failure (SetAnswer α) × Data) : Prop :=
  ∃ answer st', result.1 = .ok answer ∧ c.Meets C st answer st' ∧ Leaves C names d₀ result.2 st'

theorem done_removeKey (h : Leaves C names d₀ d st) {name : Bytes} (hname : name ∈ names) :
    Done C names d₀ st (.removeKey name) (exec (run C S rand (.removeKey name)) d) := by
  have hdel : exec (call S rand [.string (lit "DEL"), .string name]) d = _ := exec_del [name]
  have hwrite : after delStep d [name] = writeBack d name (.set ((∅ : Finset α).map C.stored)) := by
    rw [writeBack, if_neg]
    · rfl
    · exact fun hinhabited => hinhabited rfl
  rw [run, SetKey.removeKey, exec_bind_ok (exec_callVoid hdel), hwrite]
  exact ⟨_, _, rfl, ⟨rfl, rfl⟩, h.writeBack hname ∅⟩

theorem done_random (verb : Verb) (remove : Bool) (hverb : ∀ v, executeVerb S rand verb v = randomElement remove rand v)
    (h : Leaves C names d₀ d st) {name : Bytes} (hname : name ∈ names) :
    ∃ a d', exec (C.callFor S rand [.string verb.text, .string name]) d = (.ok a, d') ∧
      ((st name = ∅ ∧ a = C.absent ∧ d' = d) ∨
        ∃ value ∈ st name, a = value ∧
          d' = writeBack d name (.set ((if remove then (st name).erase value else st name).map C.stored))) := by
  have hcall : ∀ {v d'}, exec (randomElement remove rand [.string name]) d = (.ok v, d') →
      exec (call S rand [.string verb.text, .string name]) d = (.ok v, d') := by
    intro v d' hexec
    apply exec_call_ok
    rw [hverb, hexec]
  by_cases hempty : st name = ∅
  · have hlookup := h.1 name hname
    rw [if_pos hempty] at hlookup
    exact ⟨_, _, C.exec_callFor (hcall (exec_randomElement_missing remove hlookup)) C.read_null,
      .inl ⟨hempty, rfl, rfl⟩⟩
  · have hlookup := h.1.lookup hname hempty
    obtain ⟨x, hx, hexec⟩ : ∃ x ∈ (st name).map C.stored, exec (randomElement remove rand _) d = _ :=
      exec_randomElement remove hlookup (Finset.map_nonempty.mpr (Finset.nonempty_iff_ne_empty.mpr hempty))
    obtain ⟨value, hvalue, rfl⟩ := Finset.mem_map.mp hx
    refine ⟨_, _, C.exec_callFor (hcall hexec) (C.read_text value), .inr ⟨value, hvalue, rfl, ?_⟩⟩
    cases remove with
    | false => rfl
    | true => rw [if_pos rfl, if_pos rfl, C.stored_apply, erase_stored]

theorem done_moveTo (h : Leaves C names d₀ d st) {name other : Bytes} (hname : name ∈ names) (hother : other ∈ names)
    (value : α) :
    Done C names d₀ st (.moveTo name value other) (exec (run C S rand (.moveTo name value other)) d) := by
  have hx : (C.push value).eatString [] = .ok (C.text value) := C.eat_push value []
  rw [run, SetKey.moveTo]
  by_cases hmoves : value ∈ st name ∧ name ≠ other
  · obtain ⟨hmem, hne⟩ := hmoves
    have hexec : exec (call S rand _) d = _ :=
      exec_smove (h.1.holds hname) hx (mem_stored.mpr hmem) hne (h.1.holds hother)
    rw [insert_stored, erase_stored] at hexec
    rw [exec_bind_ok (exec_callBool hexec)]
    refine ⟨_, _, rfl, ⟨?_, ?_⟩, (h.writeBack hother _).writeBack hname _⟩
    · rw [decide_eq_true hmem]
      rfl
    · rw [if_pos hmem]
      dsimp only
      rw [Function.update_of_ne (Ne.symm hne), Function.update_comm hne]
  · have hstill : value ∈ st name → name = other := fun hmem => not_not.mp fun hne => hmoves ⟨hmem, hne⟩
    have hexec : exec (call S rand _) d = _ :=
      exec_smove_still (h.1.holds hname) hx fun hmem => hstill (mem_stored.mp hmem)
    rw [exec_bind_ok (exec_callBool hexec), decide_flag]
    refine ⟨_, st, rfl, ⟨by simp only [mem_stored], ?_⟩, h⟩
    split_ifs with hmem
    · obtain rfl := hstill hmem
      dsimp only
      rw [Function.update_self, Finset.insert_erase hmem, Function.update_idem, Function.update_eq_self]
    · rfl

theorem done_extractRandom (h : Leaves C names d₀ d st) {name : Bytes} (hname : name ∈ names) :
    Done C names d₀ st (.extractRandom name) (exec (run C S rand (.extractRandom name)) d) := by
  obtain ⟨a, d', hexec, hchoice⟩ : ∃ a d', exec (SetKey.extractRandom C S rand name) d = (.ok a, d') ∧ _ :=
    done_random .spop true (fun _ => rfl) h hname
  rw [run, exec_bind_ok hexec]
  rcases hchoice with ⟨hempty, rfl, rfl⟩ | ⟨value, hvalue, rfl, rfl⟩
  · exact ⟨_, st, rfl, .inl ⟨hempty, rfl, rfl⟩, h⟩
  · exact ⟨_, _, rfl, .inr ⟨_, hvalue, rfl, rfl⟩, h.writeBack hname _⟩

theorem done_getRandom (h : Leaves C names d₀ d st) {name : Bytes} (hname : name ∈ names) :
    Done C names d₀ st (.getRandom name) (exec (run C S rand (.getRandom name)) d) := by
  obtain ⟨a, d', hexec, hchoice⟩ : ∃ a d', exec (SetKey.getRandom C S rand name) d = (.ok a, d') ∧ _ :=
    done_random .srandmember false (fun _ => rfl) h hname
  rw [run, exec_bind_ok hexec]
  rcases hchoice with ⟨hempty, rfl, rfl⟩ | ⟨value, hvalue, rfl, rfl⟩
  · exact ⟨_, st, rfl, ⟨.inl ⟨hempty, rfl⟩, rfl⟩, h⟩
  · refine ⟨_, st, rfl, ⟨.inr ⟨_, hvalue, rfl⟩, rfl⟩, ?_⟩
    have hkept := h.writeBack hname (st name)
    rwa [Function.update_eq_self] at hkept

theorem done_copyTo (h : Leaves C names d₀ d st) {name other : Bytes} (hname : name ∈ names) (hother : other ∈ names) :
    Done C names d₀ st (.copyTo name other) (exec (run C S rand (.copyTo name other)) d) := by
  obtain ⟨hoperands, hresult⟩ := h.1.operands .intersection (List.forall_mem_singleton.mpr hname)
  have hexec : exec (call S rand _) d = _ := exec_setStore .intersection hoperands (h.1.holds hother)
  rw [hresult] at hexec
  have hcopy : exec (SetKey.copyTo S rand name other) d = _ := exec_callVoid hexec
  rw [run, exec_bind_ok hcopy]
  exact ⟨_, _, rfl, ⟨rfl, rfl⟩, h.writeBack hother _⟩

theorem done_combine (h : Leaves C names d₀ d st) (op : SetOperation) {name other : Bytes} {more : List Bytes}
    (hkeys : ∀ n ∈ name :: other :: more, n ∈ names) (list : List α) :
    Done C names d₀ st (.combine op name other more list)
      (exec (run C S rand (.combine op name other more list)) d) := by
  obtain ⟨hoperands, hresult⟩ := h.1.operands op hkeys
  obtain ⟨as, has, hlists⟩ := exists_elements (C := C) (op.combine (st name) ((other :: more).map st)) list
  have hexec : exec (call S rand _) d = _ := exec_setQuery op hoperands
  rw [hresult, has] at hexec
  rw [run, SetKey.getResult, operation_eq, exec_bind_ok (C.exec_callList list hexec)]
  exact ⟨_, st, rfl, ⟨hlists, rfl⟩, h⟩

theorem done_storeTo (h : Leaves C names d₀ d st) (op : SetOperation) {name other dest : Bytes} {more : List Bytes}
    (hdest : dest ∈ names) (hkeys : ∀ n ∈ name :: other :: more, n ∈ names) :
    Done C names d₀ st (.storeTo op name other more dest)
      (exec (run C S rand (.storeTo op name other more dest)) d) := by
  obtain ⟨hoperands, hresult⟩ := h.1.operands op hkeys
  have hexec : exec (call S rand _) d = _ := exec_setStore op hoperands (h.1.holds hdest)
  rw [hresult] at hexec
  have hstore : exec (SetKey.storeTo S rand (SetKey.operation op name other more) dest) d =
      (.ok (), writeBack d dest (.set ((op.combine (st name) ((other :: more).map st)).map C.stored))) := by
    rw [operation_eq, SetKey.storeTo, List.headD_cons,
      exec_bind_ok (show exec (liftE (Value.string _).toStr) d = _ from rfl), storing_text]
    exact exec_callVoid hexec
  rw [run, exec_bind_ok hstore]
  exact ⟨_, _, rfl, ⟨rfl, rfl⟩, h.writeBack hdest _⟩

theorem done_run (h : Leaves C names d₀ d st) (c : SetCall α) (hc : ∀ n ∈ c.names, n ∈ names) :
    Done C names d₀ st c (exec (c.run C S rand) d) := by
  have hname : ∀ {name : Bytes}, c.names = [name] → name ∈ names := by
    intro name hn
    apply hc
    rw [hn]
    exact List.mem_singleton_self name
  cases c with
  | exists_ name =>
    rw [run, SetKey.exists_, exec_bind_ok (exec_callBool exec_exists), decide_flag]
    refine ⟨_, st, rfl, ⟨?_, rfl⟩, h⟩
    simp only [h.1 name (hname rfl), ne_eq, ite_eq_left_iff, reduceCtorEq, imp_false, not_not]
  | removeKey name => exact done_removeKey h (hname rfl)
  | size name =>
    rw [run, SetKey.size, exec_bind_ok (exec_callInt (exec_scard (h.1.holds (hname rfl))) rfl), Finset.card_map]
    exact ⟨_, st, rfl, ⟨rfl, rfl⟩, h⟩
  | empty name =>
    have hexec : exec (SetKey.empty S rand name) d = _ :=
      exec_bind_ok (exec_callInt (exec_scard (h.1.holds (hname rfl))) rfl)
    rw [run, exec_bind_ok hexec, Finset.card_map]
    exact ⟨_, st, rfl, ⟨rfl, rfl⟩, h⟩
  | add name value =>
    have hexec : exec (call S rand _) d = _ := exec_sadd_element (h.1.holds (hname rfl)) (C.eat_push value [])
    rw [run, SetKey.add, exec_bind_ok (exec_callBool hexec), insert_stored, decide_flag]
    exact ⟨_, _, rfl, ⟨by simp only [mem_stored], rfl⟩, h.writeBack (hname rfl) _⟩
  | remove name value =>
    have hexec : exec (call S rand _) d = _ := exec_srem_element (h.1.holds (hname rfl)) (C.eat_push value [])
    rw [run, SetKey.remove, exec_bind_ok (exec_callBool hexec), erase_stored, decide_flag]
    exact ⟨_, _, rfl, ⟨by simp only [mem_stored], rfl⟩, h.writeBack (hname rfl) _⟩
  | extractRandom name => exact done_extractRandom h (hname rfl)
  | getRandom name => exact done_getRandom h (hname rfl)
  | moveTo name value other =>
    exact done_moveTo h (hc name (by simp [SetCall.names])) (hc other (by simp [SetCall.names])) value
  | contains name value =>
    have hexec : exec (call S rand _) d = _ := exec_sismember (h.1.holds (hname rfl)) (C.eat_push value [])
    rw [run, SetKey.contains, exec_bind_ok (exec_callBool hexec), decide_flag]
    exact ⟨_, st, rfl, ⟨by simp only [mem_stored], rfl⟩, h⟩
  | copyTo name other => exact done_copyTo h (hc name (by simp [SetCall.names])) (hc other (by simp [SetCall.names]))
  | getAll name list =>
    obtain ⟨as, has, hlists⟩ := exists_elements (C := C) (st name) list
    have hexec : exec (call S rand _) d = _ := exec_smembers (h.1.holds (hname rfl))
    rw [has] at hexec
    rw [run, SetKey.getAll, exec_bind_ok (C.exec_callList list hexec)]
    exact ⟨_, st, rfl, ⟨hlists, rfl⟩, h⟩
  | combine op name other more list => exact done_combine h op hc list
  | storeTo op name other more dest =>
    obtain ⟨hdest, hkeys⟩ := List.forall_mem_cons.mp hc
    exact done_storeTo h op hdest hkeys

end

end SetCall

/-! ### Any calls -/

/-- The call is made on the database; what it throws goes to the caller. `std::rand` returns the number beside it. -/
def SetCall.step {α : Type} (C : Codec α) (S : StdSort) (d : Data) (c : Nat × SetCall α) :
    Except Failure (SetAnswer α) × Data := exec (c.2.run C S c.1) d

/-- What the call may answer and do on sets. -/
def SetCall.Step {α : Type} [DecidableEq α] (C : Codec α) (st : Bytes → Finset α) (c : Nat × SetCall α)
    (result : Except Failure (SetAnswer α)) (st' : Bytes → Finset α) : Prop :=
  ∃ answer, result = .ok answer ∧ c.2.Meets C st answer st'

theorem SetCall.step_simulates {α : Type} [DecidableEq α] {C : Codec α} (S : StdSort) {names : Set Bytes} {d₀ d : Data}
    {st : Bytes → Finset α} (h : Leaves C names d₀ d st) (c : Nat × SetCall α) (hc : ∀ n ∈ c.2.names, n ∈ names) :
    ∃ st', SetCall.Step C st c (SetCall.step C S d c).1 st' ∧ Leaves C names d₀ (SetCall.step C S d c).2 st' := by
  obtain ⟨answer, st', hanswer, hmeets, hnext⟩ : SetCall.Done C names d₀ st c.2 (SetCall.step C S d c) :=
    SetCall.done_run h c.2 hc
  exact ⟨st', ⟨answer, hanswer, hmeets⟩, hnext⟩

/-- **Set keys are sets.** Calls on the sets under some names, in any order, all return, and they answer and do what
they would on sets. The database shows the sets after that: an empty set leaves no key behind, and no other key is
touched. -/
theorem set_keys_are_sets {α : Type} [DecidableEq α] (C : Codec α) (S : StdSort) {names : Set Bytes} {d : Data}
    {st : Bytes → Finset α} (h : Shows C names d st) (calls : List (Nat × SetCall α))
    (hcalls : ∀ c ∈ calls, ∀ n ∈ c.2.names, n ∈ names) :
    ∃ st', Path (SetCall.Step C) st calls (outputs (SetCall.step C S) d calls) st' ∧
      Shows C names (after (SetCall.step C S) d calls) st' ∧
      ∀ name ∉ names, (after (SetCall.step C S) d calls).lookup name = d.lookup name := by
  obtain ⟨st', hpath, hleaves⟩ := simulates (f := SetCall.step C S) (R := Leaves C names d)
    (fun {d' st c} hR hc => SetCall.step_simulates S hR c hc) h.leaves calls hcalls
  exact ⟨st', hpath, hleaves⟩

def integerCalls : List (Nat × SetCall Int32) :=
  [(0, .add (lit "a") 5), (0, .add (lit "a") (-3)), (1, .moveTo (lit "a") 5 (lit "b")), (7, .extractRandom (lit "a")),
    (0, .storeTo .union (lit "a") (lit "b") [] (lit "c")), (0, .getAll (lit "c") [])]

theorem set_keys_are_sets_integers :
    ∃ st', Path (SetCall.Step Codec.integer) (fun _ => ∅) integerCalls
        (outputs (SetCall.step Codec.integer .insertion) ∅ integerCalls) st' ∧
      Shows Codec.integer Set.univ (after (SetCall.step Codec.integer .insertion) ∅ integerCalls) st' := by
  have hnone : Shows Codec.integer Set.univ ∅ fun _ => ∅ := fun _ _ => rfl
  obtain ⟨st', hpath, hshows, -⟩ :=
    set_keys_are_sets Codec.integer .insertion hnone integerCalls fun _ _ _ _ => Set.mem_univ _
  exact ⟨st', hpath, hshows⟩

end Afl.Net.Redis
