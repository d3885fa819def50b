import Afl.Lib.Run
import Afl.Net.Redis.Rewrites

/-!
# Atomicity and empty containers, for every command

`verdict_executeVerb` proves the conditions `Torn` and `LeavesEmpty` exact for all verbs. `call` adds only the
reading of the verb, so the same holds for it, for one call and for every run from the empty database.
-/

namespace Afl.Net.Redis

open Exec

/-! ### The dispatch -/

theorem verdict_query {m : Db Value} (hm : ReadOnly m) (d : Data) : Verdict m d False False :=
  verdict_of_safe (safe_of_readOnly hm d)

theorem verdict_executeVerb (S : StdSort) (rand : Nat) (verb : Verb) (v : Segment) (d : Data) :
    Verdict (executeVerb S rand verb v) d (Torn d verb v) (LeavesEmpty S d verb v) := by
  cases verb with
  | append => exact verdict_of_safe (safe_execAppend v d)
  | decr => exact verdict_of_safe (safe_execDecr v d)
  | decrby => exact verdict_of_safe (safe_execDecrby v d)
  | del => exact verdict_execDel v d
  | exists_ => exact verdict_query (readOnly_execExists v) d
  | get => exact verdict_query (readOnly_execGet v) d
  | getrange => exact verdict_query (readOnly_execGetrange v) d
  | getset => exact verdict_of_safe (safe_execGetset v d)
  | hdel => exact verdict_execHdel S v d
  | hexists => exact verdict_query (readOnly_hashLoops v).1 d
  | hget => exact verdict_query (readOnly_execHget v) d
  | hgetall => exact verdict_query (readOnly_listHash _ v) d
  | hincrby => exact verdict_of_safe (safe_execHincrby v d)
  | hkeys => exact verdict_query (readOnly_listHash _ v) d
  | hlen => exact verdict_query (readOnly_execHlen v) d
  | hmget => exact verdict_query (readOnly_hashLoops v).2 d
  | hmset => exact verdict_execHmset S v d
  | hset => exact verdict_of_safe (safe_execHset v d)
  | incr => exact verdict_of_safe (safe_execIncr v d)
  | incrby => exact verdict_of_safe (safe_execIncrby v d)
  | keys => exact verdict_query (readOnly_execKeys v) d
  | lindex => exact verdict_query (readOnly_execLindex v) d
  | llen => exact verdict_query (readOnly_execLlen v) d
  | lpop => exact verdict_of_safe (safe_execLpop v d)
  | lpush => exact verdict_pushAll S (fun _ _ => rfl) v d
  | lrange => exact verdict_query (readOnly_execLrange v) d
  | lrem => exact verdict_execLrem S v d
  | lset => exact verdict_of_safe (safe_execLset v d)
  | ltrim => exact verdict_of_safe (safe_execLtrim v d)
  | mset => exact verdict_execMset v d
  | rename => exact verdict_of_safe (safe_execRename v d)
  | renamenx => exact verdict_of_safe (safe_execRenamenx v d)
  | rpop => exact verdict_of_safe (safe_execRpop v d)
  | rpoplpush => exact verdict_of_safe (safe_execRpoplpush v d)
  | rpush => exact verdict_pushAll S (fun _ _ => by simp) v d
  | sadd => exact verdict_execSadd S v d
  | scard => exact verdict_query (readOnly_execScard v) d
  | sdiff => exact verdict_query (readOnly_setQuery _ v) d
  | sdiffstore => exact verdict_of_safe (safe_setStore _ v d)
  | set => exact verdict_of_safe (safe_execSet v d)
  | setnx => exact verdict_of_safe (safe_execSetnx v d)
  | sinter => exact verdict_query (readOnly_setQuery _ v) d
  | sinterstore => exact verdict_of_safe (safe_setStore _ v d)
  | sismember => exact verdict_query (readOnly_execSismember v) d
  | smembers => exact verdict_query (readOnly_execSmembers v) d
  | smove => exact verdict_execSmove S v d
  | sort => exact verdict_execSort S v d
  | spop => exact verdict_of_safe (safe_randomElement _ _ v d)
  | srandmember => exact verdict_of_safe (safe_randomElement _ _ v d)
  | srem => exact verdict_execSrem S v d
  | strlen => exact verdict_query (readOnly_execStrlen v) d
  | sunion => exact verdict_query (readOnly_setQuery _ v) d
  | sunionstore => exact verdict_of_safe (safe_setStore _ v d)
  | type_ => exact verdict_query (readOnly_execType v) d
  | ping => exact verdict_query (.pure _) d

/-- The verb `call` finds in a command, and the arguments. -/
def commandVerb : Segment → Option (Verb × Segment)
  | [] => none
  | .null :: _ => none
  | x :: v =>
    match x.eatString [] with
    | .error _ => none
    | .ok verb => (Verb.ofText (strUCase verb)).map fun verb => (verb, v)

/-- `Torn` for a whole command. -/
def TornCall (d : Data) (command : Segment) : Prop :=
  ∃ verb v, commandVerb command = some (verb, v) ∧ Torn d verb v

/-- `LeavesEmpty` for a whole command. -/
def LeavesEmptyCall (S : StdSort) (d : Data) (command : Segment) : Prop :=
  ∃ verb v, commandVerb command = some (verb, v) ∧ LeavesEmpty S d verb v

theorem Verdict.mapError {m : Db Value} {d : Data} {torn leavesEmpty : Prop} {f : Failure → Failure}
    (h : Verdict m d torn leavesEmpty) (hthrown : ∀ e, ∃ e', f (.thrown e) = .thrown e')
    (hundefined : f .undefined = .undefined) : Verdict (Exec.mapError f m) d torn leavesEmpty := by
  have hresult : ∀ r : Except Failure Value, (∃ e, r.mapError f = .error (.thrown e)) ↔ ∃ e, r = .error (.thrown e) := by
    rintro ((e | -) | a)
    · simpa [Except.mapError] using hthrown e
    · simp [Except.mapError, hundefined]
    · simp [Except.mapError]
  refine ⟨?_, fun hdef => h.empty_iff fun hm => ?_⟩
  · rw [← h.torn_iff, exec_mapError, exists_and_right, exists_and_right, hresult]
  · rw [exec_mapError, hm] at hdef
    exact hdef (congrArg Except.error hundefined)

theorem verdict_fail (msg : Bytes) (d : Data) : Verdict (fail msg) d False False := verdict_query (.throw _) d

theorem verdict_of_no_verb {S : StdSort} {command : Segment} {m : Db Value} {d : Data}
    (hverb : commandVerb command = none) (h : Verdict m d False False) :
    Verdict m d (TornCall d command) (LeavesEmptyCall S d command) :=
  h.congr (by simp [TornCall, hverb]) fun _ => by simp [LeavesEmptyCall, hverb]

theorem commandVerb_cons {x : Value} (hx : x ≠ .null) (v : Segment) :
    commandVerb (x :: v) =
      match x.eatString [] with
      | .error _ => none
      | .ok verb => (Verb.ofText (strUCase verb)).map fun verb => (verb, v) := by
  cases x <;> first | exact absurd rfl hx | rfl

theorem verdict_call (S : StdSort) (rand : Nat) (command : Segment) (d : Data) :
    Verdict (call S rand command) d (TornCall d command) (LeavesEmptyCall S d command) := by
  unfold call
  split
  · exact verdict_of_no_verb rfl (verdict_fail _ d)
  · exact verdict_of_no_verb rfl (verdict_fail _ d)
  · rename_i x v hx
    have hcommand := commandVerb_cons (x := x) hx v
    cases htext : x.eatString [] with
    | error e =>
      rw [htext] at hcommand
      refine verdict_of_no_verb hcommand (verdict_bind (readOnly_liftE _) (fun _ h => ?_) fun _ _ => ⟨id, id⟩)
      cases h
    | ok text =>
      rw [htext] at hcommand
      refine verdict_bind (.pure text) (fun _ h => ?_) (fun _ h => by cases h)
      cases h
      refine Verdict.mapError ?_ (fun e => ⟨_, rfl⟩) rfl
      unfold execute
      cases hverb : Verb.ofText (strUCase text) with
      | none =>
        simp only [hverb, Option.map_none] at hcommand
        exact verdict_of_no_verb hcommand (verdict_fail _ d)
      | some verb =>
        simp only [hverb, Option.map_some] at hcommand
        refine (verdict_executeVerb S rand verb v d).congr ?_ fun _ => ?_
        · simp [TornCall, hcommand]
        · simp [LeavesEmptyCall, hcommand]

/-! ### Runs from the empty database -/

/-- One call on the database; a run ends where the behaviour is undefined. A failed call is a step like any
other. -/
def step (S : StdSort) (d : Data) (input : Nat × Segment) : Option Data :=
  match exec (call S input.1 input.2) d with
  | (.error .undefined, _) => none
  | (_, d') => some d'

/-- A command whose words are all strings. -/
def words (args : List String) : Segment := args.map fun arg => .string (lit arg)

/-! ### Failed commands -/

/-- A call that throws leaves the database as it was, for exactly the commands that are not torn. -/
theorem call_atomic_iff (S : StdSort) (rand : Nat) (d : Data) (command : Segment) :
    (∀ e d', exec (call S rand command) d = (.error (.thrown e), d') → d' = d) ↔ ¬TornCall d command := by
  rw [← (verdict_call S rand command d).torn_iff]
  constructor
  · rintro h ⟨e, he, hne⟩
    exact hne (h e _ (Prod.ext he rfl))
  · intro h e d' hcall
    by_contra hne
    exact h ⟨e, by rw [hcall], by rw [hcall]; exact hne⟩

/-- After `SADD s x` and `SET k v`, `SMOVE s k x` fails because `k` is not a set, and `s` is an empty set. -/
theorem smove_torn :
    ∃ d d' e, Run.final (step .insertion) ∅ [(0, words ["SADD", "s", "x"]), (0, words ["SET", "k", "v"])] = some d ∧
      exec (call .insertion 0 (words ["SMOVE", "s", "k", "x"])) d = (.error (.thrown e), d') ∧
      d.lookup (lit "s") = some (.set {lit "x"}) ∧ d'.lookup (lit "s") = some (.set ∅) :=
  ⟨_, _, _, rfl, rfl, by decide, by decide⟩

/-! ### Empty containers -/

theorem step_noEmptyContainer_iff {S : StdSort} {d d' : Data} {input : Nat × Segment}
    (hstep : step S d input = some d') (hd : NoEmptyContainer d) :
    NoEmptyContainer d' ↔ ¬LeavesEmptyCall S d input.2 := by
  unfold step at hstep
  have hverdict := (verdict_call S input.1 input.2 d).empty_iff
  rcases hexec : exec (call S input.1 input.2) d with ⟨r, d₁⟩
  rw [hexec] at hstep hverdict
  match r with
  | .error .undefined => cases hstep
  | .error (.thrown e) =>
    cases hstep
    exact hverdict (by simp) hd
  | .ok a =>
    cases hstep
    exact hverdict (by simp) hd

/-- Along a run from the empty database, no key ever maps to an empty container exactly if no call of the
run leaves one. -/
theorem run_noEmptyContainer_iff (S : StdSort) (inputs : List (Nat × Segment)) :
    (∀ t ∈ Run.trace (step S) ∅ inputs, NoEmptyContainer t.post) ↔
      ∀ t ∈ Run.trace (step S) ∅ inputs, ¬LeavesEmptyCall S t.pre t.act.2 := by
  have hkeep : ∀ {d : Data} {input : Nat × Segment} {d' : Data}, step S d input = some d' → NoEmptyContainer d →
      ¬LeavesEmptyCall S d input.2 → NoEmptyContainer d' :=
    fun hstep hd hC => (step_noEmptyContainer_iff hstep hd).mpr hC
  have hbreak : ∀ {d : Data} {input : Nat × Segment} {d' : Data}, step S d input = some d' → NoEmptyContainer d →
      ¬¬LeavesEmptyCall S d input.2 → ¬NoEmptyContainer d' :=
    fun hstep hd hC hpost => hC ((step_noEmptyContainer_iff hstep hd).mp hpost)
  exact Run.forall_post_iff id hkeep hbreak noEmptyContainer_empty inputs

/-- `RPUSH k a` and then `LREM k 0 a` leaves an empty list under `k`. -/
theorem lrem_leaves_empty :
    ∃ d, Run.final (step .insertion) ∅ [(0, words ["RPUSH", "k", "a"]), (0, words ["LREM", "k", "0", "a"])] = some d ∧
      d.lookup (lit "k") = some (.list []) ∧ ¬NoEmptyContainer d :=
  ⟨_, rfl, by decide, fun h => h (lit "k") (.list []) (by decide) rfl⟩

end Afl.Net.Redis
