import Afl.Lib.Machine
import Afl.Net.Redis.Members

/-!
# Batch commands

`MSET`, `HMSET`, `HMGET` and the commands that take several members do the work of several single commands. Each is
compared with the run of these commands: the database afterwards, and what is returned.
-/

namespace Afl.Net.Redis

open Exec Machine

/-! ### Loops over strings -/

/-- A loop whose body moves the database from `D t` to `D t'`, where `next` computes the next `t` and adds to a number. -/
theorem exec_eatEach_strings {τ α : Type} {D : τ → Data} {a : τ → Nat → α} {body : Bytes → α → Db α}
    {next : τ → Bytes → Nat × τ}
    (hbody : ∀ t n s, exec (body s (a t n)) (D t) = (.ok (a (next t s).2 (n + (next t s).1)), D (next t s).2))
    (args : List Bytes) (value : Bytes) (t : τ) (n : Nat) :
    exec (eatEach body (args.map .string) value (a t n)) (D t) =
      (.ok (a (after next t args) (n + (outputs next t args).sum)), D (after next t args)) := by
  induction args generalizing value t n with
  | nil => rfl
  | cons s args ih =>
    rw [List.map_cons, eatEach, eatString_string, exec_bind_ok (exec_liftE_ok _ _), exec_bind_ok (hbody t n s), ih,
      outputs, after, List.sum_cons, Nat.add_assoc]

theorem eatenPairs_strings (pairs : List (Bytes × Bytes)) (field value : Bytes) :
    eatenPairs (pairs.flatMap fun p => [.string p.1, .string p.2]) field value = (pairs, none) := by
  induction pairs generalizing field value with
  | nil => rfl
  | cons p pairs ih =>
    simp only [List.flatMap_cons, List.cons_append, List.nil_append, eatenPairs, eatString_string, ih]

theorem length_pairs (pairs : List (Bytes × Bytes)) :
    (pairs.flatMap fun p => [Value.string p.1, .string p.2]).length = 2 * pairs.length := by
  induction pairs with
  | nil => rfl
  | cons p pairs ih =>
    rw [List.flatMap_cons, List.length_append, ih, List.length_cons, List.length_cons, List.length_cons, List.length_nil]
    omega

/-! ### Containers under a key -/

/-- The key is there with content `t`, or it is missing and `t` is what a new one contains. -/
def Holds {τ : Type} (T : KeyClass τ) (key : Bytes) (d : Data) (t : τ) : Prop :=
  d.lookup key = some (T.toKey t) ∨ d.lookup key = none ∧ t = T.new

section

variable {τ : Type} {T : KeyClass τ} {key : Bytes}

theorem holds_insert (d : Data) (t : τ) : Holds T key (d.insert key (T.toKey t)) t := .inl (Finmap.lookup_insert d)

theorem holds_writeBack (hnew : ∀ t, ¬(T.toKey t).Inhabited → t = T.new) (d : Data) (t : τ) :
    Holds T key (writeBack d key (T.toKey t)) t := by
  unfold writeBack
  split_ifs with h
  · exact holds_insert d t
  · exact .inr ⟨Finmap.lookup_erase key d, hnew t h⟩

theorem writeBack_writeBack (d : Data) (k k' : Key) :
    writeBack (writeBack d key k) key k' = writeBack d key k' := by
  rw [writeBack.eq_def d key k]
  split_ifs
  · exact writeBack_insert d key k k'
  · unfold writeBack
    rw [Finmap.insert_erase_self, Finmap.erase_of_lookup_none (Finmap.lookup_erase key d)]

theorem holds_or_other (T : KeyClass τ) (key : Bytes) (d : Data) :
    (∃ t, Holds T key d t) ∨ ∃ k, d.lookup key = some k ∧ T.dynamicCast k = none := by
  cases hl : d.lookup key with
  | none => exact .inl ⟨T.new, .inr ⟨hl, rfl⟩⟩
  | some k =>
    cases hcast : T.dynamicCast k with
    | none => exact .inr ⟨k, rfl, hcast⟩
    | some t => exact .inl ⟨t, .inl (by rw [hl, T.eq_toKey hcast])⟩

end

/-! ### The containers after each member -/

/-- The number of keys a name takes away, and what is left. -/
def delStep (d : Data) (s : Bytes) : Nat × Data := (if d.lookup s = none then 0 else 1, d.erase s)

def hdelStep (m_hash : Finmap fun _ : Bytes => Bytes) (s : Bytes) : Nat × Finmap fun _ : Bytes => Bytes :=
  (if m_hash.lookup s = none then 0 else 1, m_hash.erase s)

def saddStep (m_set : Finset Bytes) (s : Bytes) : Nat × Finset Bytes :=
  (if s ∈ m_set then 0 else 1, insert s m_set)

def sremStep (m_set : Finset Bytes) (s : Bytes) : Nat × Finset Bytes :=
  (if s ∈ m_set then 1 else 0, m_set.erase s)

/-- The length of a list after a push, and the list. -/
def pushStep (push : List Bytes → Bytes → List Bytes) (m_list : List Bytes) (s : Bytes) : Nat × List Bytes :=
  ((push m_list s).length, push m_list s)

theorem exec_delRound (d : Data) (n : Nat) (s : Bytes) :
    exec (delRound s n) d = (.ok (n + (delStep d s).1), (delStep d s).2) := by
  unfold delRound delStep
  rw [exec_bind_ok (exec_get _)]
  cases hs : d.lookup s with
  | none =>
    rw [Finmap.erase_of_lookup_none hs]
    rfl
  | some k => rfl

theorem exec_hdelRound (d : Data) (key : Bytes) (m_hash : Finmap fun _ : Bytes => Bytes) (n : Nat) (s : Bytes) :
    exec (hdelRound key s (m_hash, n)) (d.insert key (.hash m_hash)) =
      (.ok ((hdelStep m_hash s).2, n + (hdelStep m_hash s).1), d.insert key (.hash (hdelStep m_hash s).2)) := by
  unfold hdelRound hdelStep
  cases hs : m_hash.lookup s with
  | none =>
    rw [Finmap.erase_of_lookup_none hs]
    rfl
  | some value =>
    dsimp only
    rw [exec_bind_ok (exec_store _ _ _ _), Finmap.insert_insert]
    rfl

theorem exec_saddRound (d : Data) (key : Bytes) (m_set : Finset Bytes) (n : Nat) (s : Bytes) :
    exec (saddRound key s (m_set, n)) (d.insert key (.set m_set)) =
      (.ok ((saddStep m_set s).2, n + (saddStep m_set s).1), d.insert key (.set (saddStep m_set s).2)) := by
  unfold saddRound saddStep
  by_cases hs : s ∈ m_set
  · simp only [if_pos hs, Finset.insert_eq_of_mem hs]
    rfl
  · simp only [if_neg hs]
    rw [exec_bind_ok (exec_store _ _ _ _), Finmap.insert_insert]
    rfl

theorem exec_sremRound (d : Data) (key : Bytes) (m_set : Finset Bytes) (n : Nat) (s : Bytes) :
    exec (sremRound key s (m_set, n)) (d.insert key (.set m_set)) =
      (.ok ((sremStep m_set s).2, n + (sremStep m_set s).1), d.insert key (.set (sremStep m_set s).2)) := by
  unfold sremRound sremStep
  by_cases hs : s ∈ m_set
  · simp only [if_pos hs]
    rw [exec_bind_ok (exec_store _ _ _ _), Finmap.insert_insert]
    rfl
  · simp only [if_neg hs, Finset.erase_eq_of_notMem hs]
    rfl

theorem exec_pushRound (d : Data) (push : List Bytes → Bytes → List Bytes) (key : Bytes) (m_list : List Bytes)
    (s : Bytes) :
    exec (pushRound push key s m_list) (d.insert key (.list m_list)) =
      (.ok (pushStep push m_list s).2, d.insert key (.list (pushStep push m_list s).2)) := by
  unfold pushRound pushStep
  rw [exec_bind_ok (exec_store _ _ _ _), Finmap.insert_insert]
  rfl

/-! ### The commands -/

section

variable {S : StdSort} {rand : Nat} {d : Data} {key : Bytes}

theorem exec_del (args : List Bytes) :
    exec (call S rand (.string Verb.del.text :: args.map .string)) d =
      (.ok (.integer (int32OfSize (outputs delStep d args).sum)), after delStep d args) := by
  have hloop := exec_eatEach_strings (D := id) (a := fun _ n => n) (fun d n s => exec_delRound d n s) args [] d 0
  rw [Nat.zero_add] at hloop
  apply exec_call_ok
  exact exec_bind_ok hloop

theorem exec_sadd {m_set : Finset Bytes} (h : Holds .set key d m_set) (arg : Bytes) (args : List Bytes) :
    exec (call S rand (.string Verb.sadd.text :: .string key :: (arg :: args).map .string)) d =
      (.ok (.integer (int32OfSize (outputs saddStep m_set (arg :: args)).sum)),
        d.insert key (.set (after saddStep m_set (arg :: args)))) := by
  have hloop := exec_eatEach_strings (a := Prod.mk) (exec_saddRound d key) (arg :: args) [] m_set 0
  rw [Nat.zero_add] at hloop
  apply exec_call_ok
  change exec (execSadd _) _ = _
  rw [execSadd, exec_checkArgumentCountAtLeast_bind (by simp), exec_eatString_bind (eatString_string _ _)]
  exact (exec_bind_ok (exec_getCreate h)).trans (exec_bind_ok hloop)

theorem exec_pushAll {push : List Bytes → Bytes → List Bytes} {m_list : List Bytes} (h : Holds .list key d m_list)
    (arg : Bytes) (args : List Bytes) :
    exec (pushAll push (.string key :: (arg :: args).map .string)) d =
      (.ok (.integer (int32OfSize (after (pushStep push) m_list (arg :: args)).length)),
        d.insert key (.list (after (pushStep push) m_list (arg :: args)))) := by
  have hloop := exec_eatEach_strings (a := fun m_list _ => m_list)
    (fun m_list _ s => exec_pushRound d push key m_list s) (arg :: args) [] m_list 0
  rw [pushAll, exec_checkArgumentCountAtLeast_bind (by simp), exec_eatString_bind (eatString_string _ _)]
  exact (exec_bind_ok (exec_getCreate h)).trans (exec_bind_ok hloop)

theorem exec_shrink {τ : Type} {T : KeyClass τ} {next : τ → Bytes → Nat × τ} {round : Bytes → τ × Nat → Db (τ × Nat)}
    {f : τ × Nat → Db Value} {t : τ} (h : d.lookup key = some (T.toKey t))
    (hround : ∀ t n s, exec (round s (t, n)) (d.insert key (T.toKey t)) =
      (.ok ((next t s).2, n + (next t s).1), d.insert key (T.toKey (next t s).2)))
    (hf : ∀ t n, exec (f (t, n)) (d.insert key (T.toKey t)) =
      (.ok (.integer (int32OfSize n)), writeBack d key (T.toKey t))) (args : List Bytes) :
    exec (eatEach round (args.map .string) [] (t, 0) >>= f) d =
      (.ok (.integer (int32OfSize (outputs next t args).sum)), writeBack d key (T.toKey (after next t args))) := by
  have hloop := exec_eatEach_strings (a := Prod.mk) hround args [] t 0
  rw [Nat.zero_add, Finmap.insert_of_lookup h] at hloop
  exact (exec_bind_ok hloop).trans (hf _ _)

theorem shrink_missing {τ : Type} {T : KeyClass τ} {g : τ → Bytes → Nat × τ} (h : d.lookup key = none)
    (hnew : ¬(T.toKey T.new).Inhabited) (hnext : ∀ s, g T.new s = (0, T.new)) (args : List Bytes) :
    (outputs g T.new args).sum = 0 ∧ writeBack d key (T.toKey (after g T.new args)) = d := by
  induction args with
  | nil => exact ⟨rfl, by rw [after, writeBack, if_neg hnew, Finmap.erase_of_lookup_none h]⟩
  | cons s args ih =>
    rw [outputs, after, hnext, List.sum_cons, ih.1, ih.2]
    exact ⟨rfl, rfl⟩

variable {m_hash : Finmap fun _ : Bytes => Bytes}

theorem exec_hdel (h : Holds .hash key d m_hash) (args : List Bytes) :
    exec (call S rand (.string Verb.hdel.text :: .string key :: args.map .string)) d =
      (.ok (.integer (int32OfSize (outputs hdelStep m_hash args).sum)),
        writeBack d key (.hash (after hdelStep m_hash args))) := by
  apply exec_call_ok
  change exec (execHdel _) _ = _
  rw [execHdel, exec_checkArgumentCountAtLeast_bind (by simp), exec_eatString_bind (eatString_string _ _)]
  dsimp only
  rcases h with h | ⟨h, rfl⟩
  · rw [exec_get_bind .hash h]
    exact exec_shrink (T := .hash) h (exec_hdelRound d key)
      (fun t n => exec_bind_ok (exec_eraseIf key (by simp [Key.Inhabited]))) args
  · obtain ⟨hsum, hwrite⟩ := shrink_missing (T := .hash) (g := hdelStep) h (by simp [KeyClass.hash, Key.Inhabited])
      (fun s => rfl) args
    rw [exec_get_bind_missing h, hsum, ← hash_toKey, hwrite]
    rfl

theorem exec_srem {m_set : Finset Bytes} (h : Holds .set key d m_set) (arg : Bytes) (args : List Bytes) :
    exec (call S rand (.string Verb.srem.text :: .string key :: (arg :: args).map .string)) d =
      (.ok (.integer (int32OfSize (outputs sremStep m_set (arg :: args)).sum)),
        writeBack d key (.set (after sremStep m_set (arg :: args)))) := by
  apply exec_call_ok
  change exec (execSrem _) _ = _
  rw [execSrem, exec_checkArgumentCountAtLeast_bind (by simp), exec_eatString_bind (eatString_string _ _)]
  dsimp only
  rcases h with h | ⟨h, rfl⟩
  · rw [exec_get_bind .set h]
    exact exec_shrink (T := .set) h (exec_sremRound d key)
      (fun t n => exec_bind_ok (exec_eraseIf key (by simp [Key.Inhabited]))) (arg :: args)
  · obtain ⟨hsum, hwrite⟩ := shrink_missing (T := .set) (g := sremStep) h (by simp [KeyClass.set, Key.Inhabited])
      (fun s => rfl) (arg :: args)
    rw [exec_get_bind_missing h, hsum, ← set_toKey, hwrite]
    rfl

/-- What `SET` returns, and the database after it. -/
def setStep (d : Data) (p : Bytes × Bytes) : Value × Data := (.string (lit "OK"), d.insert p.1 (.string p.2))

theorem exec_set (d : Data) (p : Bytes × Bytes) :
    exec (call S rand [.string Verb.set.text, .string p.1, .string p.2]) d = (.ok (setStep d p).1, (setStep d p).2) := by
  apply exec_call_ok
  change exec (execSet _) _ = _
  rw [execSet, exec_checkArgumentCount_bind (n := 2) rfl, exec_eatString_bind (eatString_string _ _),
    exec_eatString_bind (eatString_string _ _)]
  exact exec_bind_ok (exec_assign _ _ _)

theorem exec_mset (pairs : List (Bytes × Bytes)) :
    exec (call S rand (.string Verb.mset.text :: pairs.flatMap fun p => [.string p.1, .string p.2])) d =
      (.ok (.string (lit "OK")), after setStep d pairs) := by
  obtain ⟨_, rfl, hexec⟩ := exec_eatEachPair_bind (I := fun seen d' => d' = assignKeys d seen) assign_step
    (pairs.flatMap fun p => [.string p.1, .string p.2]) (d := d) rfl (Value.string (lit "OK"))
  rw [eatenPairs_strings] at hexec
  rw [after_eq_foldl]
  apply exec_call_ok
  change exec (execMset _) _ = _
  rw [execMset, exec_checkParity_bind (by rw [length_pairs, Nat.mul_mod_right])]
  exact hexec

/-- Whether a field is new, and the hash with it. -/
def hsetStep (m_hash : Finmap fun _ : Bytes => Bytes) (p : Bytes × Bytes) : Value × Finmap fun _ : Bytes => Bytes :=
  (.integer (if m_hash.lookup p.1 = none then 1 else 0), m_hash.insert p.1 p.2)

theorem exec_hset (h : Holds .hash key d m_hash) (p : Bytes × Bytes) :
    exec (call S rand [.string Verb.hset.text, .string key, .string p.1, .string p.2]) d =
      (.ok (hsetStep m_hash p).1, d.insert key (.hash (hsetStep m_hash p).2)) := by
  apply exec_call_ok
  change exec (execHset _) _ = _
  rw [execHset, exec_checkArgumentCount_bind (n := 3) rfl, exec_eatString_bind (eatString_string _ _),
    exec_eatString_bind (eatString_string _ _), exec_eatString_bind (eatString_string _ _)]
  refine (exec_bind_ok (exec_getCreate h)).trans ((exec_bind_ok (exec_store _ _ _ _)).trans ?_)
  rw [Finmap.insert_insert]
  rfl

theorem exec_hmset (h : Holds .hash key d m_hash) (pairs : List (Bytes × Bytes)) :
    exec (call S rand (.string Verb.hmset.text :: .string key ::
      pairs.flatMap fun p => [.string p.1, .string p.2])) d =
      (.ok (.string (lit "OK")), d.insert key (.hash (after hsetStep m_hash pairs))) := by
  obtain ⟨_, rfl, hexec⟩ := exec_eatEachPair_bind
    (I := fun seen d' => d' = d.insert key (.hash (assignFields m_hash seen))) assignField_step
    (pairs.flatMap fun p => [.string p.1, .string p.2]) (d := d.insert key (.hash m_hash)) rfl (Value.string (lit "OK"))
  rw [eatenPairs_strings] at hexec
  rw [after_eq_foldl]
  apply exec_call_ok
  change exec (execHmset _) _ = _
  rw [execHmset, exec_checkParity_bind (by rw [List.length_cons, length_pairs]; omega),
    exec_eatString_bind (eatString_string _ _)]
  exact (exec_bind_ok (exec_getCreate h)).trans hexec

/-- What `HGET` returns for a field. -/
def hgetValue (m_hash : Finmap fun _ : Bytes => Bytes) (field : Bytes) : Value :=
  match m_hash.lookup field with
  | some s => .string s
  | none => .null

theorem exec_hget (h : Holds .hash key d m_hash) (field : Bytes) :
    exec (call S rand [.string Verb.hget.text, .string key, .string field]) d = (.ok (hgetValue m_hash field), d) := by
  apply exec_call_ok
  change exec (execHget _) _ = _
  rw [execHget, exec_checkArgumentCount_bind (n := 2) rfl, exec_eatString_bind (eatString_string _ _),
    exec_eatString_bind (eatString_string _ _)]
  dsimp only
  rcases h with h | ⟨h, rfl⟩
  · rw [exec_get_bind .hash h, hgetValue]
    dsimp only
    cases m_hash.lookup field <;> rfl
  · rw [exec_get_bind_missing h]
    rfl

theorem exec_hmget (h : d.lookup key = some (.hash m_hash)) (fields : List Bytes) :
    exec (call S rand (.string Verb.hmget.text :: .string key :: fields.map .string)) d =
      (.ok (.vector (fields.map (hgetValue m_hash))), d) := by
  have hloop : ∀ (value : Bytes) (result : Segment),
      exec (eatEach (fun fieldArg (result : Segment) => pure (result ++ [hgetValue m_hash fieldArg]))
        (fields.map .string) value result) d = (.ok (result ++ fields.map (hgetValue m_hash)), d) := by
    induction fields with
    | nil => exact fun value result => by rw [List.map_nil, List.map_nil, List.append_nil]; rfl
    | cons field fields ih =>
      intro value result
      rw [List.map_cons, eatEach, eatString_string, exec_bind_ok (exec_liftE_ok _ _), exec_bind_ok (exec_pure _ _), ih,
        List.map_cons, List.append_assoc, List.singleton_append]
  apply exec_call_ok
  change exec (execHmget _) _ = _
  rw [execHmget, exec_checkArgumentCountAtLeast_bind (by simp),
    exec_eatString_bind (eatString_string _ _)]
  dsimp only
  rw [exec_get_bind .hash h]
  exact exec_bind_ok (hloop [] [])

theorem exec_hmget_missing (h : d.lookup key = none) (fields : List Bytes) :
    exec (call S rand (.string Verb.hmget.text :: .string key :: fields.map .string)) d = (.ok (.vector []), d) := by
  apply exec_call_ok
  change exec (execHmget _) _ = _
  rw [execHmget, exec_checkArgumentCountAtLeast_bind (by simp),
    exec_eatString_bind (eatString_string _ _)]
  dsimp only
  rw [exec_get_bind_missing h]
  rfl

end

/-! ### Batches and their single commands -/

/-- The commands that take several members of one key. -/
inductive MemberVerb
  | hdel | sadd | srem | lpush | rpush

def MemberVerb.verb : MemberVerb → Verb
  | hdel => .hdel
  | sadd => .sadd
  | srem => .srem
  | lpush => .lpush
  | rpush => .rpush

/-- A command that stands for several ones. -/
inductive Batch
  | mset (pairs : List (Bytes × Bytes))
  | hmset (key : Bytes) (pair : Bytes × Bytes) (pairs : List (Bytes × Bytes))
  | del (keys : List Bytes)
  | members (verb : MemberVerb) (key : Bytes) (arg : Bytes) (args : List Bytes)
  | hmget (key : Bytes) (fields : List Bytes)

def Batch.command : Batch → Segment
  | mset pairs => .string Verb.mset.text :: pairs.flatMap fun p => [.string p.1, .string p.2]
  | hmset key pair pairs =>
    .string Verb.hmset.text :: .string key :: (pair :: pairs).flatMap fun p => [.string p.1, .string p.2]
  | del keys => .string Verb.del.text :: keys.map .string
  | members verb key arg args => .string verb.verb.text :: .string key :: (arg :: args).map .string
  | hmget key fields => .string Verb.hmget.text :: .string key :: fields.map .string

def Batch.singles : Batch → List Segment
  | mset pairs => pairs.map fun p => [.string Verb.set.text, .string p.1, .string p.2]
  | hmset key pair pairs =>
    (pair :: pairs).map fun p => [.string Verb.hset.text, .string key, .string p.1, .string p.2]
  | del keys => keys.map fun key => [.string Verb.del.text, .string key]
  | members verb key arg args => (arg :: args).map fun s => [.string verb.verb.text, .string key, .string s]
  | hmget key fields => fields.map fun field => [.string Verb.hget.text, .string key, .string field]

/-- The number in a result. -/
def resultCount : Value → Int32
  | .integer n => n
  | _ => 0

def total (values : List Value) : Value := .integer (values.map resultCount).sum

/-- What a batch returns, given what the single commands return. -/
def Batch.Result (v : Value) : Batch → List Value → Prop
  | mset _, _ => v = .string (lit "OK")
  | hmset _ _ _, _ => v = .string (lit "OK")
  | del _, values => v = total values
  | members .lpush _ _ _, values => values.getLast? = some v
  | members .rpush _ _ _, values => values.getLast? = some v
  | members _ _ _ _, values => v = total values
  | hmget _ fields, values => v = .vector values ∧ values.length = fields.length

def reply (S : StdSort) (rand : Nat) (d : Data) (command : Segment) : Except Failure Value × Data :=
  exec (call S rand command) d

/-- The batch leaves the database that the single commands leave, and it returns what they return, unless all throw. -/
def Batch.Agrees (S : StdSort) (rand : Nat) (d : Data) (b : Batch) : Prop :=
  (reply S rand d b.command).2 = after (reply S rand) d b.singles ∧
    ((∃ values v, outputs (reply S rand) d b.singles = values.map .ok ∧ (reply S rand d b.command).1 = .ok v ∧
        b.Result v values) ∨
      ((∀ r ∈ outputs (reply S rand) d b.singles, ∃ e, r = .error (.thrown e)) ∧
        ∃ e, (reply S rand d b.command).1 = .error (.thrown e)))

section

variable {S : StdSort} {rand : Nat} {d : Data} {b : Batch}

theorem agrees_of_returns {d' : Data} {v : Value} {values : List Value} (hbatch : reply S rand d b.command = (.ok v, d'))
    (houtputs : outputs (reply S rand) d b.singles = values.map .ok) (hafter : after (reply S rand) d b.singles = d')
    (hresult : b.Result v values) : b.Agrees S rand d := by
  rw [Batch.Agrees, hbatch, hafter]
  exact ⟨rfl, .inl ⟨values, v, houtputs, rfl, hresult⟩⟩

theorem agrees_of_throws {δ : Type} {c : δ → Segment} {xs : List δ} (hsingles : b.singles = xs.map c)
    (hbatch : ∃ e, reply S rand d b.command = (.error (.thrown e), d))
    (hsingle : ∀ x, ∃ e, reply S rand d (c x) = (.error (.thrown e), d)) : b.Agrees S rand d := by
  obtain ⟨e, hbatch⟩ := hbatch
  choose answer hsingle using hsingle
  obtain ⟨houtputs, hafter⟩ := outputs_of_still hsingle xs
  rw [Batch.Agrees, hbatch, hsingles, houtputs, hafter]
  refine ⟨rfl, .inr ⟨fun r hr => ?_, e, rfl⟩⟩
  obtain ⟨x, -, rfl⟩ := List.mem_map.mp hr
  exact ⟨answer x, rfl⟩

theorem total_counts (ns : List Nat) : total (ns.map fun n => .integer (int32OfSize n)) = .integer (int32OfSize ns.sum) := by
  have hsum : ((ns.map fun n => Value.integer (int32OfSize n)).map resultCount).sum = int32OfSize ns.sum := by
    induction ns with
    | nil => rfl
    | cons n ns ih =>
      rw [List.map_cons, List.map_cons, List.sum_cons, List.sum_cons, ih, resultCount, int32OfSize, int32OfSize,
        int32OfSize, Nat.cast_add, Int32.ofInt_add]
  rw [total, hsum]

theorem agrees_mset (pairs : List (Bytes × Bytes)) : (Batch.mset pairs).Agrees S rand d := by
  obtain ⟨houtputs, hafter⟩ := outputs_of_image (f := reply S rand) exec_set d pairs
  exact agrees_of_returns (exec_mset pairs) houtputs hafter rfl

theorem agrees_del (keys : List Bytes) : (Batch.del keys).Agrees S rand d := by
  obtain ⟨houtputs, hafter⟩ := outputs_of_image (f := reply S rand) (c := fun key => [.string Verb.del.text, .string key])
    (φ := fun n => .ok (.integer (int32OfSize n))) (g := delStep) (fun d key => exec_del [key]) d keys
  refine agrees_of_returns (exec_del keys) (houtputs.trans ?_) hafter (total_counts _).symm
  rw [List.map_map]
  rfl

/-- A command that finds the content `t` of a key and writes another one: the members are taken one after another. -/
theorem agrees_members {τ : Type} {T : KeyClass τ} {verb : MemberVerb} {key arg : Bytes} {args : List Bytes}
    {next : τ → Bytes → Nat × τ} {w : Data → τ → Data} {a : τ → List Bytes → Nat}
    (hspec : ∀ {d t} arg args, Holds T key d t →
      reply S rand d (.string verb.verb.text :: .string key :: (arg :: args).map .string) =
        (.ok (.integer (int32OfSize (a t (arg :: args)))), w d (after next t (arg :: args))))
    (hanswer : ∀ t s, a t [s] = (next t s).1)
    (hholds : ∀ d t, Holds T key (w d t) t) (hwrite : ∀ d t u, w (w d t) u = w d u)
    (hresult : ∀ t, (Batch.members verb key arg args).Result (.integer (int32OfSize (a t (arg :: args))))
      ((outputs next t (arg :: args)).map fun n => .integer (int32OfSize n)))
    (hother : ∀ {k} arg args, d.lookup key = some k → T.dynamicCast k = none →
      ∃ e, reply S rand d (.string verb.verb.text :: .string key :: (arg :: args).map .string) = (.error (.thrown e), d)) :
    (Batch.members verb key arg args).Agrees S rand d := by
  rcases holds_or_other T key d with ⟨t, ht⟩ | ⟨k, hk, hcast⟩
  · have hsingle : ∀ {d t} (s : Bytes), Holds T key d t →
        reply S rand d [.string verb.verb.text, .string key, .string s] =
          (.ok (.integer (int32OfSize (next t s).1)), w d (next t s).2) := by
      intro d t s h
      rw [← hanswer]
      exact hspec s [] h
    obtain ⟨houtputs, hafter⟩ := outputs_of_overwrite (f := reply S rand)
      (c := fun s => [.string verb.verb.text, .string key, .string s])
      (φ := fun n => .ok (.integer (int32OfSize n))) (g := next) hsingle hholds hwrite ht arg args
    refine agrees_of_returns (hspec arg args ht) (houtputs.trans ?_) hafter (hresult t)
    rw [List.map_map]
    rfl
  · exact agrees_of_throws rfl (hother arg args hk hcast) fun s => hother s [] hk hcast

theorem agrees_hdel (key arg : Bytes) (args : List Bytes) : (Batch.members .hdel key arg args).Agrees S rand d := by
  refine agrees_members (T := .hash) (w := fun d t => writeBack d key (.hash t))
    (a := fun t args => (outputs hdelStep t args).sum) (fun arg args h => exec_hdel h (arg :: args))
    (fun t s => Nat.add_zero _) (holds_writeBack fun t h => not_not.mp h)
    (fun d t u => writeBack_writeBack d _ _) (fun t => (total_counts _).symm) fun arg args hk hcast => ?_
  apply exec_call_thrown
  change exec (execHdel _) _ = _
  rw [execHdel, exec_checkArgumentCountAtLeast_bind (by simp),
    exec_eatString_bind (eatString_string _ _)]
  dsimp only
  exact exec_get_bind_other hk hcast _

theorem agrees_srem (key arg : Bytes) (args : List Bytes) : (Batch.members .srem key arg args).Agrees S rand d := by
  refine agrees_members (T := .set) (w := fun d t => writeBack d key (.set t))
    (a := fun t args => (outputs sremStep t args).sum) (fun arg args h => exec_srem h arg args)
    (fun t s => Nat.add_zero _) (holds_writeBack fun t h => not_not.mp h)
    (fun d t u => writeBack_writeBack d _ _) (fun t => (total_counts _).symm) fun arg args hk hcast => ?_
  apply exec_call_thrown
  change exec (execSrem _) _ = _
  rw [execSrem, exec_checkArgumentCountAtLeast_bind (by simp),
    exec_eatString_bind (eatString_string _ _)]
  dsimp only
  exact exec_get_bind_other hk hcast _

theorem agrees_sadd (key arg : Bytes) (args : List Bytes) : (Batch.members .sadd key arg args).Agrees S rand d := by
  refine agrees_members (T := .set) (w := fun d t => d.insert key (.set t))
    (a := fun t args => (outputs saddStep t args).sum) (fun arg args h => exec_sadd h arg args)
    (fun t s => Nat.add_zero _) holds_insert (fun d t u => Finmap.insert_insert d) (fun t => (total_counts _).symm)
    fun arg args hk hcast => ?_
  apply exec_call_thrown
  change exec (execSadd _) _ = _
  rw [execSadd, exec_checkArgumentCountAtLeast_bind (by simp),
    exec_eatString_bind (eatString_string _ _)]
  exact exec_bind_error (exec_getCreate_error hk hcast)

theorem getLast?_pushes (push : List Bytes → Bytes → List Bytes) (m_list : List Bytes) (arg : Bytes)
    (args : List Bytes) :
    ((outputs (pushStep push) m_list (arg :: args)).map fun n => Value.integer (int32OfSize n)).getLast? =
      some (.integer (int32OfSize (after (pushStep push) m_list (arg :: args)).length)) := by
  induction args generalizing m_list arg with
  | nil => rfl
  | cons s args ih =>
    rw [outputs, after, ← ih, outputs, List.map_cons, List.map_cons, List.getLast?_cons_cons]

theorem agrees_push {verb : MemberVerb} {push : List Bytes → Bytes → List Bytes}
    (hverb : ∀ v, executeVerb S rand verb.verb v = pushAll push v)
    (hresult : ∀ key arg args v values, (Batch.members verb key arg args).Result v values ↔ values.getLast? = some v)
    (key arg : Bytes) (args : List Bytes) : (Batch.members verb key arg args).Agrees S rand d := by
  refine agrees_members (T := .list) (w := fun d t => d.insert key (.list t))
    (a := fun t args => (after (pushStep push) t args).length) (fun arg args h => ?_)
    (fun t s => rfl) holds_insert (fun d t u => Finmap.insert_insert d)
    (fun t => (hresult _ _ _ _ _).mpr (getLast?_pushes push t arg args)) fun arg args hk hcast => ?_
  · apply exec_call_ok
    rw [hverb]
    exact exec_pushAll h arg args
  · apply exec_call_thrown
    rw [hverb, pushAll, exec_checkArgumentCountAtLeast_bind (by simp), exec_eatString_bind (eatString_string _ _)]
    exact exec_bind_error (exec_getCreate_error hk hcast)

theorem agrees_hmset (key : Bytes) (pair : Bytes × Bytes) (pairs : List (Bytes × Bytes)) :
    (Batch.hmset key pair pairs).Agrees S rand d := by
  rcases holds_or_other .hash key d with ⟨t, ht⟩ | ⟨k, hk, hcast⟩
  · obtain ⟨houtputs, hafter⟩ := outputs_of_overwrite (f := reply S rand) (R := Holds .hash key)
      (w := fun d t => d.insert key (.hash t)) (φ := .ok) (g := hsetStep)
      (fun p h => exec_hset h p) holds_insert (fun d t u => Finmap.insert_insert d) ht pair pairs
    exact agrees_of_returns (exec_hmset ht (pair :: pairs)) houtputs hafter rfl
  · refine agrees_of_throws rfl ?_ fun p => ?_
    · apply exec_call_thrown
      change exec (execHmset _) _ = _
      rw [execHmset, exec_checkParity_bind (by rw [List.length_cons, length_pairs]; omega),
        exec_eatString_bind (eatString_string _ _)]
      exact exec_bind_error (exec_getCreate_error hk hcast)
    · apply exec_call_thrown
      change exec (execHset _) _ = _
      rw [execHset, exec_checkArgumentCount_bind (n := 3) rfl, exec_eatString_bind (eatString_string _ _),
        exec_eatString_bind (eatString_string _ _), exec_eatString_bind (eatString_string _ _)]
      exact exec_bind_error (exec_getCreate_error hk hcast)

theorem agrees_hmget_iff (key : Bytes) (fields : List Bytes) :
    (Batch.hmget key fields).Agrees S rand d ↔ d.lookup key ≠ none ∨ fields = [] := by
  rcases holds_or_other .hash key d with ⟨t, ht⟩ | ⟨k, hk, hcast⟩
  · obtain ⟨houtputs, hafter⟩ := outputs_of_still (f := reply S rand) (fun field => exec_hget ht field) fields
    have hvalues : fields.map (fun field => Except.ok (ε := Failure) (hgetValue t field)) =
        (fields.map (hgetValue t)).map .ok := by
      rw [List.map_map]
      rfl
    rw [hvalues] at houtputs
    rcases ht with ht | ⟨ht, -⟩
    · refine iff_of_true (agrees_of_returns (exec_hmget ht fields) houtputs hafter ⟨rfl, List.length_map _⟩) (.inl ?_)
      rw [ht]
      exact Option.some_ne_none _
    · -- the shortcut for a missing key returns a vector without elements
      refine ⟨?_, ?_⟩
      · rintro ⟨-, ⟨values, v, -, hvector, rfl, hlength⟩ | ⟨-, e, herror⟩⟩
        · cases (congrArg Prod.fst (exec_hmget_missing ht fields)).symm.trans hvector
          exact .inr (List.length_eq_zero_iff.mp hlength.symm)
        · cases (congrArg Prod.fst (exec_hmget_missing ht fields)).symm.trans herror
      · rintro (hfound | rfl)
        · exact (hfound ht).elim
        · exact agrees_of_returns (exec_hmget_missing ht []) houtputs hafter ⟨rfl, rfl⟩
  · refine iff_of_true (agrees_of_throws rfl ?_ fun p => ?_) (.inl (by rw [hk]; exact Option.some_ne_none k))
    · apply exec_call_thrown
      change exec (execHmget _) _ = _
      rw [execHmget, exec_checkArgumentCountAtLeast_bind (by simp),
        exec_eatString_bind (eatString_string _ _)]
      dsimp only
      exact exec_get_bind_other hk hcast _
    · apply exec_call_thrown
      change exec (execHget _) _ = _
      rw [execHget, exec_checkArgumentCount_bind (n := 2) rfl, exec_eatString_bind (eatString_string _ _),
        exec_eatString_bind (eatString_string _ _)]
      dsimp only
      exact exec_get_bind_other hk hcast _

end

/-- **A batch is its single commands**, whatever the database and the arguments are, unless it asks for fields of a hash
that is missing. -/
theorem batch_agrees_iff (S : StdSort) (rand : Nat) (d : Data) (b : Batch) :
    b.Agrees S rand d ↔ ∀ key fields, b = .hmget key fields → d.lookup key ≠ none ∨ fields = [] := by
  cases b with
  | hmget key fields =>
    rw [agrees_hmget_iff]
    exact ⟨fun h key' fields' heq => by cases heq; exact h, fun h => h key fields rfl⟩
  | mset pairs => exact iff_of_true (agrees_mset pairs) fun key fields h => by cases h
  | hmset key pair pairs => exact iff_of_true (agrees_hmset key pair pairs) fun key fields h => by cases h
  | del keys => exact iff_of_true (agrees_del keys) fun key fields h => by cases h
  | members verb key arg args =>
    refine iff_of_true ?_ fun key fields h => by cases h
    cases verb with
    | hdel => exact agrees_hdel key arg args
    | sadd => exact agrees_sadd key arg args
    | srem => exact agrees_srem key arg args
    | lpush => exact agrees_push (fun v => rfl) (fun _ _ _ _ _ => Iff.rfl) key arg args
    | rpush => exact agrees_push (fun v => rfl) (fun _ _ _ _ _ => Iff.rfl) key arg args

/-- Of a missing hash, `HGET` returns null for a field, and `HMGET` returns nothing for it. -/
theorem hmget_of_missing :
    exec (call .insertion 0 [.string (lit "HMGET"), .string (lit "k"), .string (lit "f")]) ∅ = (.ok (.vector []), ∅) ∧
      exec (call .insertion 0 [.string (lit "HGET"), .string (lit "k"), .string (lit "f")]) ∅ = (.ok .null, ∅) ∧
      ¬(Batch.hmget (lit "k") [lit "f"]).Agrees .insertion 0 ∅ := by
  refine ⟨exec_hmget_missing (Finmap.lookup_empty _) [lit "f"], exec_hget (.inr ⟨Finmap.lookup_empty _, rfl⟩) (lit "f"), ?_⟩
  rw [agrees_hmget_iff]
  exact fun h => h.elim (fun hfound => hfound (Finmap.lookup_empty _)) (fun hfields => by cases hfields)

end Afl.Net.Redis
